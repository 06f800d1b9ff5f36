namespace ApiSurface.CommandLine

structure Options where
  /-- The file or directory to read, if it is named. -/
  path : Option String
  json : Bool
  exclude : List String
  dumpRecords : Option String
  checkDocs : Bool
  targetType : Option String
  suppress : List String
  /-- Names of functions that the documentation check leaves out. -/
  ignore : List String
  artifact : Option String
  deps : List String
  reachable : Option String
  dotFile : Option String
  graphJson : Bool
  deriving DecidableEq, Repr

inductive Request where
  | run (options : Options)
  | version
  | help
  deriving DecidableEq, Repr

inductive UsageError where
  | unknownOption (argument : String)
  | extraArgument (argument : String)
  | missingValue (option : String)
  | unexpectedValue (option : String)
  | repeated (option : String)
  | conflict (option other : String)
  deriving DecidableEq, Repr

def UsageError.message : UsageError → String
  | .unknownOption argument => "unknown option '" ++ argument ++ "'"
  | .extraArgument argument => "unexpected argument '" ++ argument ++ "'"
  | .missingValue option => "option '--" ++ option ++ "' needs a value"
  | .unexpectedValue option => "option '--" ++ option ++ "' takes no value"
  | .repeated option => "option '--" ++ option ++ "' is given twice"
  | .conflict option other => "options '--" ++ option ++ "' and '--" ++ other ++ "' exclude each other"

inductive OptionKind where
  | flag (isSet : Options → Bool) (set : Options → Options)
  | single (value : Options → Option String) (set : Options → String → Options)
  | several (add : Options → List String → Options)

namespace Options

def empty : Options :=
  ⟨none, false, [], none, false, none, [], [], none, [], none, none, false⟩

def kinds : List (String × OptionKind) :=
  [("json", .flag json fun o => { o with json := true }),
   ("check-docs", .flag checkDocs fun o => { o with checkDocs := true }),
   ("graph-json", .flag graphJson fun o => { o with graphJson := true }),
   ("target-type", .single targetType fun o v => { o with targetType := some v }),
   ("dump-records", .single dumpRecords fun o v => { o with dumpRecords := some v }),
   ("artifact", .single artifact fun o v => { o with artifact := some v }),
   ("reachable", .single reachable fun o v => { o with reachable := some v }),
   ("dot-file", .single dotFile fun o v => { o with dotFile := some v }),
   ("exclude", .several fun o vs => { o with exclude := o.exclude ++ vs }),
   ("suppress", .several fun o vs => { o with suppress := o.suppress ++ vs }),
   ("ignore", .several fun o vs => { o with ignore := o.ignore ++ vs }),
   ("deps", .several fun o vs => { o with deps := o.deps ++ vs })]

/-- An argument that is no option: the path, which may be named once. -/
def withPath (o : Options) (argument : String) : Except UsageError Options :=
  match o.path with
  | none => .ok { o with path := some argument }
  | some _ => .error (.extraArgument argument)

/-- The options with one more flag, option or list of values set; an option that takes one value or
none refuses a second time. -/
def withValues (o : Options) (name : String) (kind : OptionKind) (values : List String) :
    Except UsageError Options :=
  match kind, values with
  | .flag isSet set, [] => if isSet o then .error (.repeated name) else .ok (set o)
  | .flag .., _ => .error (.unexpectedValue name)
  | .single value set, [v] => if (value o).isSome then .error (.repeated name) else .ok (set o v)
  | .single .., _ => .error (.missingValue name)
  | .several _, [] => .error (.missingValue name)
  | .several add, values => .ok (add o values)

def checked (o : Options) : Except UsageError Options :=
  if o.checkDocs ∧ !o.deps.isEmpty then .error (.conflict "check-docs" "deps")
  else if o.checkDocs ∧ o.reachable.isSome then .error (.conflict "check-docs" "reachable")
  else .ok o

end Options

/-- Whether an argument can be a value; a single dash can. -/
def isValue (argument : String) : Bool := argument.toList.head? != some '-' || argument == "-"

def valuesAhead (kind : OptionKind) (arguments : List String) : List String :=
  match kind with
  | .flag .. => []
  | .single .. => (arguments.take 1).filter isValue
  | .several _ => arguments.takeWhile isValue

/-- A name and the text after the equals sign, if there is one. -/
def splitEquals (s : List Char) : List Char × Option (List Char) :=
  match s.dropWhile (· != '=') with
  | [] => (s, none)
  | _ :: value => (s.takeWhile (· != '='), some value)

inductive Argument where
  | value (text : String)
  /-- The double dash that ends the options. -/
  | ending
  | short (letter : Char)
  | long (name : String) (joined : Option String)
  deriving DecidableEq, Repr

namespace Argument

def ofString (argument : String) : Argument :=
  match argument.toList with
  | ['-', '-'] => .ending
  | '-' :: '-' :: rest =>
    let (name, joined) := splitEquals rest
    .long (String.ofList name) (joined.map String.ofList)
  | '-' :: letter :: _ => .short letter
  | _ => .value argument

end Argument

def readArguments (o : Options) (arguments : List String) : Except UsageError Request :=
  match arguments with
  | [] => o.checked.map .run
  | argument :: rest =>
    match Argument.ofString argument with
    | .value path =>
      match o.withPath path with
      | .ok o => readArguments o rest
      | .error e => .error e
    | .ending =>
      match rest.foldlM Options.withPath o with
      | .ok o => o.checked.map .run
      | .error e => .error e
    | .short 'V' | .long "version" none => .ok .version
    | .short 'h' | .long "help" none => .ok .help
    | .short _ => .error (.unknownOption argument)
    | .long name joined =>
      match Options.kinds.lookup name with
      | none => .error (.unknownOption argument)
      | some kind =>
        let values := match joined with
          | some value => [value]
          | none => valuesAhead kind rest
        match o.withValues name kind values with
        | .ok o => readArguments o (if joined.isSome then rest else rest.drop values.length)
        | .error e => .error e
termination_by arguments.length
decreasing_by
  · simp
  · split
    · exact Nat.lt_succ_self _
    · simp only [List.length_drop, List.length_cons]
      omega

def request (arguments : List String) : Except UsageError Request := readArguments .empty arguments

end ApiSurface.CommandLine
