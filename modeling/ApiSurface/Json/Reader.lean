import ApiSurface.Json.Number
import ApiSurface.Json.Value

namespace ApiSurface.Json

def isBlank (c : Char) : Bool := c == ' ' || c == '\n' || c == '\t' || c == '\r'

def skipBlanks (s : List Char) : List Char := s.dropWhile isBlank

def scalar (s : List Char) : Option (Value × List Char) :=
  match s with
  | 'n' :: 'u' :: 'l' :: 'l' :: rest => some (.null, rest)
  | 't' :: 'r' :: 'u' :: 'e' :: rest => some (.bool true, rest)
  | 'f' :: 'a' :: 'l' :: 's' :: 'e' :: rest => some (.bool false, rest)
  | s => (number s).map (Prod.map .number id)

/-- A name and the colon after it; what is left begins the value. -/
def memberName (s : List Char) : Option (List Char × List Char) :=
  match skipBlanks s with
  | '"' :: rest => do
    let (name, rest) ← scanString rest
    match skipBlanks rest with
    | ':' :: rest => return (name, rest)
    | _ => none
  | _ => none

mutual

/-- The value in front of a text of at most `n` characters. -/
def readWithin : (n : Nat) → List Char → Option (Value × List Char)
  | 0, _ => none
  | n + 1, s =>
    match skipBlanks s with
    | '"' :: rest => (scanString rest).map (Prod.map .string id)
    | '[' :: rest =>
      match skipBlanks rest with
      | ']' :: rest => some (.array [], rest)
      | rest => do
        let (item, rest) ← readWithin n rest
        let (items, rest) ← itemsWithin n rest
        return (.array (item :: items), rest)
    | '\x7b' :: rest =>
      match skipBlanks rest with
      | '\x7d' :: rest => some (.object [], rest)
      | rest => do
        let (name, rest) ← memberName rest
        let (value, rest) ← readWithin n rest
        let (members, rest) ← membersWithin n rest
        return (.object ((name, value) :: members), rest)
    | s => scalar s
termination_by structural n => n

/-- The items after the first one, and the bracket that ends them. -/
def itemsWithin : (n : Nat) → List Char → Option (List Value × List Char)
  | 0, _ => none
  | n + 1, s =>
    match skipBlanks s with
    | ']' :: rest => some ([], rest)
    | ',' :: rest => do
      let (item, rest) ← readWithin n rest
      let (items, rest) ← itemsWithin n rest
      return (item :: items, rest)
    | _ => none
termination_by structural n => n

/-- The members after the first one, and the brace that ends them. -/
def membersWithin : (n : Nat) → List Char → Option (List (List Char × Value) × List Char)
  | 0, _ => none
  | n + 1, s =>
    match skipBlanks s with
    | '\x7d' :: rest => some ([], rest)
    | ',' :: rest => do
      let (name, rest) ← memberName rest
      let (value, rest) ← readWithin n rest
      let (members, rest) ← membersWithin n rest
      return ((name, value) :: members, rest)
    | _ => none
termination_by structural n => n

end

def parse (s : List Char) : Option Value :=
  match readWithin s.length s with
  | some (value, rest) => if (skipBlanks rest).isEmpty then some value else none
  | none => none

end ApiSurface.Json
