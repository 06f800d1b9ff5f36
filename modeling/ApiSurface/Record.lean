import ApiSurface.Parameter

namespace ApiSurface

structure Signature where
  name : String
  /-- `private`, `pub`, or `pub(scope)`. -/
  visibility : String
  /-- The words between the visibility and `fn`, in order. -/
  qualifiers : List String
  /-- The names of the generic parameters, without bounds and defaults. -/
  generics : List String
  parameters : List Parameter
  returnType : Option TypeExpr
  deriving DecidableEq, Repr

namespace Signature

open Text

/-- The visibility of what no visibility is written for. -/
def privateWord : String := "private"

def publicWord : String := "pub"

def unsafeWord : String := "unsafe"

def isPublic (s : Signature) : Bool := s.visibility == publicWord

def isUnsafe (s : Signature) : Bool := s.qualifiers.contains unsafeWord

def lastSegmentFrom (last : List Char) : List Char → List Char
  | ':' :: rest => lastSegmentFrom ((strip? [':'] rest).getD last) rest
  | _ :: rest => lastSegmentFrom last rest
  | [] => last

/-- The last segment of a path: what follows the last `::`. -/
def lastSegment (path : List Char) : List Char := lastSegmentFrom path path

/-- Whether the return type is a path whose last segment is `Result`. -/
def returnsResult (s : Signature) : Bool :=
  match s.returnType with
  | some (.named path _) => lastSegment path.toList == "Result".toList
  | _ => false

def argumentNames (s : Signature) : List String :=
  (s.parameters.filter (!·.isReceiver)).map Parameter.name

def genericChars : List String → List Char
  | [] => []
  | names => '<' :: ", ".toList.intercalate (names.map String.toList) ++ ['>']

def visibilityChars (visibility : String) : List Char :=
  if visibility = privateWord then [] else visibility.toList ++ [' ']

/-- The signature as it is declared, on one line. -/
def chars (s : Signature) : List Char :=
  visibilityChars s.visibility ++ s.qualifiers.flatMap (fun q => q.toList ++ [' ']) ++
    "fn ".toList ++ s.name.toList ++ genericChars s.generics ++
    '(' :: ", ".toList.intercalate (s.parameters.map Parameter.chars) ++ [')'] ++
    (s.returnType.elim [] fun t => " -> ".toList ++ t.chars)

instance : ToString Signature := ⟨fun s => String.ofList s.chars⟩

end Signature

structure FunctionRecord where
  signature : Signature
  /-- The doc comment lines above it, each without its marker. -/
  docLines : List String
  body : String
  /-- The type whose block it stands in. -/
  owner : Option String
  file : String
  /-- The line it begins on, the first being 1. -/
  line : Nat
  deriving DecidableEq, Repr

namespace FunctionRecord

def name (r : FunctionRecord) : String := r.signature.name

def isMethod (r : FunctionRecord) : Bool := r.owner.isSome

def qualifiedName (r : FunctionRecord) : String :=
  match r.owner with
  | some owner => owner ++ "::" ++ r.name
  | none => r.name

end FunctionRecord

end ApiSurface
