namespace ApiSurface.Path

def segmentsOf : List Char → List Char × List (List Char)
  | [] => ([], [])
  | c :: rest =>
    let (first, more) := segmentsOf rest
    if c = '/' then ([], first :: more) else (c :: first, more)

/-- All segments, empty ones too; a path without a slash is one segment. -/
def segments (path : String) : List String :=
  let (first, more) := segmentsOf path.toList
  (first :: more).map String.ofList

def maxSegmentBytes : Nat := 255

def maxBytes : Nat := 4095

def isUsable (path : String) : Bool := path.utf8ByteSize ≤ maxBytes

def isAbsolute (path : String) : Bool := path.toList.head? == some '/'

def upSegment : String := ".."

/-- Whether a segment after the first one names no step. -/
def isIdle (segment : String) : Bool := segment == "" || segment == "."

theorem isIdle_eq_false_iff {segment : String} :
    isIdle segment = false ↔ segment ≠ "" ∧ segment ≠ "." := by
  simp [isIdle]

/-- The segments that name a step. -/
def steps (path : String) : List String := (segments path).filter (!isIdle ·)

def stepsUp (path : String) : Bool := (segments path).contains upSegment

def hasNul (path : String) : Bool := path.toList.contains '\x00'

/-- The segments from the last one to the first, without the idle ones at the end of the path; the
first segment of a path always stays. -/
def dropIdle : List String → List String
  | [] => []
  | [first] => [first]
  | last :: more => if isIdle last then dropIdle more else last :: more

/-- The steps of a path, the last one first, idle ones at its end left out. -/
def backwards (path : String) : List String := dropIdle (segments path).reverse

/-- The name that a path ends in; none for a path that ends in dots or is empty or a root. -/
def fileName? (path : String) : Option String :=
  match backwards path with
  | name :: _ => if isIdle name || name == upSegment then none else some name
  | [] => none

/-- The path without its last step; empty for a single relative step, none for a root or nothing. -/
def parent? (path : String) : Option String :=
  match backwards path with
  | [] => none
  | [first] => if first = "" then none else some ""
  | _ :: more =>
    match dropIdle more with
    | [""] => some "/"
    | steps => some ("/".intercalate steps.reverse)

def endsInSlash (path : String) : Bool := path.toList.getLast? == some '/'

/-- The path `name` seen from the directory `base`. -/
def join (base name : String) : String :=
  if isAbsolute name || base == "" then name
  else if endsInSlash base then base ++ name
  else base ++ "/" ++ name

/-- Whether a file name ends in a dot and `extension`, with something in front of the dot. -/
def hasExtension (extension : List Char) (name : String) : Bool :=
  let ending := '.' :: extension
  ending.length < name.toList.length && ending.reverse.isPrefixOf name.toList.reverse

end ApiSurface.Path
