import ApiSurface.Corpus
import ApiSurface.Doc.Argument

namespace ApiSurface

open Text

inductive Finding where
  | missingDocumentation
  | missingDescription
  | missingExampleHeader
  | missingExampleCode
  | methodNotInExample
  | missingArgumentsHeader
  | missingArgumentDoc (name : String)
  | emptyArgumentDescription (name : String)
  | malformedArgumentEntry (line : String)
  | missingSafetySection
  | missingRaisesSection
  deriving DecidableEq, Repr

namespace Finding

def kindName : Finding → String
  | .missingDocumentation => "MissingDocumentation"
  | .missingDescription => "MissingDescription"
  | .missingExampleHeader => "MissingExampleHeader"
  | .missingExampleCode => "MissingExampleCode"
  | .methodNotInExample => "MethodNotInExample"
  | .missingArgumentsHeader => "MissingArgumentsHeader"
  | .missingArgumentDoc _ => "MissingArgumentDoc"
  | .emptyArgumentDescription _ => "EmptyArgumentDescription"
  | .malformedArgumentEntry _ => "MalformedArgumentEntry"
  | .missingSafetySection => "MissingSafetySection"
  | .missingRaisesSection => "MissingRaisesSection"

/-- The finding of a kind, with the detail that three of the kinds have. -/
def ofKind? : (kind : String) → (detail : String) → Option Finding
  | "MissingDocumentation", _ => some .missingDocumentation
  | "MissingDescription", _ => some .missingDescription
  | "MissingExampleHeader", _ => some .missingExampleHeader
  | "MissingExampleCode", _ => some .missingExampleCode
  | "MethodNotInExample", _ => some .methodNotInExample
  | "MissingArgumentsHeader", _ => some .missingArgumentsHeader
  | "MissingArgumentDoc", detail => some (.missingArgumentDoc detail)
  | "EmptyArgumentDescription", detail => some (.emptyArgumentDescription detail)
  | "MalformedArgumentEntry", detail => some (.malformedArgumentEntry detail)
  | "MissingSafetySection", _ => some .missingSafetySection
  | "MissingRaisesSection", _ => some .missingRaisesSection
  | _, _ => none

/-- The argument or line that the finding is about. -/
def detail? : Finding → Option String
  | .missingArgumentDoc name | .emptyArgumentDescription name => some name
  | .malformedArgumentEntry line => some line
  | _ => none

def kinds : List String :=
  ["MissingDocumentation", "MissingDescription", "MissingExampleHeader", "MissingExampleCode",
   "MethodNotInExample", "MissingArgumentsHeader", "MissingArgumentDoc", "EmptyArgumentDescription",
   "MalformedArgumentEntry", "MissingSafetySection", "MissingRaisesSection"]

def isKindName (name : String) : Bool := kinds.contains name

theorem kindName_mem_kinds (f : Finding) : f.kindName ∈ kinds := by
  cases f <;> simp [kindName, kinds]

def describe : Finding → String
  | .missingDocumentation => "no documentation"
  | .missingDescription => "no description before the first section"
  | .missingExampleHeader => "missing '# Example' section"
  | .missingExampleCode => "'# Example' has no code block"
  | .methodNotInExample => "example code does not call the method"
  | .missingArgumentsHeader => "missing '# Arguments' section"
  | .missingArgumentDoc name => s!"argument '{name}' is not documented"
  | .emptyArgumentDescription name => s!"argument '{name}' has an empty description"
  | .malformedArgumentEntry line => s!"cannot parse argument entry '{line}'"
  | .missingSafetySection => "unsafe fn without '# Safety' section"
  | .missingRaisesSection => "returns Result without '# Raises' section"

end Finding

def occursIn (part : List Char) : List Char → Bool
  | [] => part.isEmpty
  | c :: rest => startsWith part (c :: rest) || occursIn part rest

namespace DocComment

def exampleFindings (d : DocComment) (method : String) : List Finding :=
  match d.example? with
  | none => [.missingExampleHeader]
  | some s =>
    if !s.hasCode then [.missingExampleCode]
    else if !occursIn method.toList s.code then [.methodNotInExample]
    else []

def isDocumented (d : DocComment) (argument : String) : Bool :=
  d.argumentEntries.any fun entry => entry.name == argument.toList

/-- Entries of names that are no argument say nothing about the function. -/
def argumentFindings (d : DocComment) (arguments : List String) : List Finding :=
  (if (d.section? "Arguments").isNone then [.missingArgumentsHeader] else []) ++
  ((arguments.filter (!d.isDocumented ·)).map .missingArgumentDoc ++
  ((d.argumentEntries.filter fun entry =>
      entry.description.isEmpty && arguments.contains (String.ofList entry.name)).map
    fun entry => .emptyArgumentDescription (String.ofList entry.name)) ++
  d.malformedArguments.map fun line => .malformedArgumentEntry (String.ofList line))

end DocComment

namespace FunctionRecord

def docComment (r : FunctionRecord) : DocComment := .ofLines (r.docLines.map String.toList)

def findings (r : FunctionRecord) : List Finding :=
  let d := r.docComment
  if d.isEmpty then [.missingDocumentation]
  else
    (if d.hasDescription then [] else [.missingDescription]) ++
    d.exampleFindings r.name ++
    (if r.signature.argumentNames.isEmpty then []
      else d.argumentFindings r.signature.argumentNames) ++
    (if r.signature.isUnsafe && (d.section? "Safety").isNone then [.missingSafetySection] else []) ++
    (if r.signature.returnsResult && (d.section? "Raises").isNone then [.missingRaisesSection]
      else [])

end FunctionRecord

end ApiSurface
