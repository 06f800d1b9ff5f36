import ApiSurface.Bracket.TopLevel
import ApiSurface.TypeExpr.Printer

namespace ApiSurface

open Text TopLevel
open ApiSurface.Bracket (enclosed)

/-- The rest of a path after its first character: identifiers joined by `::`. A `::` that no
identifier follows is left. -/
def pathChars : List Char → List Char × List Char
  | ':' :: ':' :: c :: rest =>
    if isWordStart c then (pathChars rest).map (fun path => ':' :: ':' :: c :: path) id
    else ([], ':' :: ':' :: c :: rest)
  | c :: rest => if isWordChar c then (pathChars rest).map (c :: ·) id else ([], c :: rest)
  | [] => ([], [])

def readPlainPath : Reader (List Char)
  | c :: rest =>
    if isWordStart c then .ok ((pathChars rest).map (c :: ·) id) else .error (.noIdentifier (c :: rest))
  | [] => .error (.noIdentifier [])

/-- A path, without the `::` it may begin with. -/
def readPath : Reader (List Char) := fun s => readPlainPath ((strip? "::".toList s).getD s)

/-- The callable traits, which take their arguments in parentheses. -/
def callableKinds : List String := ["Fn", "FnMut", "FnOnce"]

def mutability : Reader Bool := fun s =>
  match keyword? "mut".toList s, keyword? "const".toList s with
  | some rest, _ => .ok (true, rest)
  | none, some rest => .ok (false, rest)
  | none, none => .error (.malformedSignature "expected 'const' or 'mut' after '*'")

def TypeExpr.wholeWith (type : Reader TypeExpr) : List Char → Except Fault TypeExpr :=
  Reader.whole "type" type

/-- A lifetime, a name bound to a type, or a type. Two equals signs bind nothing. -/
def GenericArg.readWith (type : Reader TypeExpr) : Reader GenericArg := fun s =>
  match trimStart s with
  | '\'' :: rest => (readLifetime ('\'' :: rest)).map (Prod.map (.lifetime ∘ String.ofList) id)
  | s =>
    match (word? s).map (Prod.map id trimStart) with
    | some (_, '=' :: '=' :: _) => (type s).map (Prod.map .type id)
    | some (name, '=' :: rest) => (type rest).map (Prod.map (.binding (String.ofList name)) id)
    | _ => (type s).map (Prod.map .type id)

def GenericArg.wholeWith (type : Reader TypeExpr) : List Char → Except Fault GenericArg :=
  Reader.whole "generic argument" (GenericArg.readWith type)

def GenericArg.readBoundWith (type : Reader TypeExpr) : Reader GenericArg := fun s =>
  match trimStart s with
  | '\'' :: rest => (readLifetime ('\'' :: rest)).map (Prod.map (.lifetime ∘ String.ofList) id)
  | s => (type s).map (Prod.map .type id)

/-- A bound and, by `more`, those after it. -/
def GenericArg.readBoundsWith (type : Reader TypeExpr) (more : Reader (List GenericArg)) :
    Reader (List GenericArg) := fun s => do
  let (bound, rest) ← GenericArg.readBoundWith type s
  let (bounds, rest) ← more rest
  return (bound :: bounds, rest)

/-- The bounds that go on a list, each after a plus sign. -/
def GenericArg.moreLevel (type : Reader TypeExpr) (more : Reader (List GenericArg)) :
    Reader (List GenericArg) := fun s =>
  match trimStart s with
  | '+' :: rest => GenericArg.readBoundsWith type more rest
  | _ => .ok ([], s)

/-- What a callable bound returns: an arrow and a type, or nothing. -/
def TypeExpr.resultWith (type : Reader TypeExpr) : Reader (Option TypeExpr) := fun s =>
  match trimStart s with
  | '-' :: '>' :: rest => (type rest).map (Prod.map some id)
  | _ => .ok (none, s)

/-- What follows the path `name`: parentheses after a callable trait, or angle brackets. -/
def TypeExpr.namedWith (type : Reader TypeExpr) (name : String) : Reader TypeExpr := fun s =>
  match trimStart s, callableKinds.contains name with
  | '(' :: args, true => do
    let (inner, rest) ← enclosed ('(' :: args)
    let params ← (split ',' inner).mapM (TypeExpr.wholeWith type)
    let (result, rest) ← TypeExpr.resultWith type rest
    return (.fnTrait name params result, rest)
  | '<' :: args, _ => do
    let (inner, rest) ← enclosed ('<' :: args)
    let generics ← (split ',' inner).mapM (GenericArg.wholeWith type)
    return (.named name generics, rest)
  | _, _ => .ok (.named name [], s)

/-- The type in square brackets: an array if a semicolon stands outside inner brackets. -/
def TypeExpr.squareWith (type : Reader TypeExpr) (inner : List Char) : Except Fault TypeExpr :=
  match splitOnce ';' inner with
  | (element, some length) => do
    return .array (← TypeExpr.wholeWith type element) (String.ofList (trim length))
  | (element, none) => do return .slice (← TypeExpr.wholeWith type element)

/-- One layer of a type. The first character or keyword tells the kind. -/
def TypeExpr.level (type : Reader TypeExpr) (more : Reader (List GenericArg)) :
    Reader TypeExpr := fun s =>
  match trimStart s with
  | '&' :: rest => do
    let (m, rest) ← Modifiers.read ('&' :: rest)
    let (inner, rest) ← type rest
    return (.reference m.isMutable m.lifetime inner, rest)
  | '*' :: rest => do
    let (isMutable, rest) ← mutability (trimStart rest)
    let (inner, rest) ← type rest
    return (.pointer isMutable inner, rest)
  | '(' :: rest => do
    let (inner, rest) ← enclosed ('(' :: rest)
    let elements ← (split ',' inner).mapM (TypeExpr.wholeWith type)
    return (.tuple elements, rest)
  | '[' :: rest => do
    let (inner, rest) ← enclosed ('[' :: rest)
    return (← TypeExpr.squareWith type inner, rest)
  | s =>
    match keyword? "impl".toList s, keyword? "dyn".toList s with
    | some rest, _ => (GenericArg.readBoundsWith type more rest).map (Prod.map .implBound id)
    | none, some rest => (GenericArg.readBoundsWith type more rest).map (Prod.map .dynBound id)
    | none, none => do
      let (path, rest) ← readPath s
      TypeExpr.namedWith type (String.ofList path) rest

mutual

def TypeExpr.readWithin : (n : Nat) → Reader TypeExpr
  | 0 => fun s => .error (.noIdentifier s)
  | n + 1 => fun s => TypeExpr.level (TypeExpr.readWithin n) (GenericArg.moreWithin n) s
termination_by structural n => n

def GenericArg.moreWithin : (n : Nat) → Reader (List GenericArg)
  | 0 => fun s => .ok ([], s)
  | n + 1 => fun s => GenericArg.moreLevel (TypeExpr.readWithin n) (GenericArg.moreWithin n) s
termination_by structural n => n

end

namespace TypeExpr

def read : Reader TypeExpr := fun s => readWithin s.length s

/-- The text as one type; anything after it but white space is an error. -/
def ofText : List Char → Except Fault TypeExpr := wholeWith read

end TypeExpr

def GenericArg.read : Reader GenericArg := GenericArg.readWith TypeExpr.read

end ApiSurface
