import ApiSurface.Json.Literal

namespace ApiSurface.Json

inductive Value where
  | null
  | bool (value : Bool)
  | number (literal : List Char)
  /-- The literal is what stands between the quotes. -/
  | string (literal : List Char)
  | array (items : List Value)
  /-- Each name is the literal between the quotes. -/
  | object (members : List (List Char × Value))
  deriving Inhabited, Repr

namespace Value

def ofText (s : List Char) : Value := .string (escape s)

def ofString (s : String) : Value := ofText s.toList

def ofNat (n : Nat) : Value := .number (Nat.toDigits 10 n)

def ofList {α : Type} (encode : α → Value) (items : List α) : Value := .array (items.map encode)

def ofOption {α : Type} (encode : α → Value) : Option α → Value
  | some a => encode a
  | none => .null

/-- An object whose names need no escapes. -/
def ofFields (fields : List (String × Value)) : Value :=
  .object (fields.map fun (name, value) => (escape name.toList, value))

def lineBreak (indent : Nat) : List Char := '\n' :: List.replicate (2 * indent) ' '

def quoted (literal : List Char) : List Char := '"' :: literal ++ ['"']

mutual

/-- The value as text, its first line standing at the end of one that is indented `indent` levels. -/
def chars (indent : Nat) : Value → List Char
  | .null => "null".toList
  | .bool true => "true".toList
  | .bool false => "false".toList
  | .number literal => literal
  | .string literal => quoted literal
  | .array [] => "[]".toList
  | .array (item :: items) =>
    '[' :: lineBreak (indent + 1) ++ item.chars (indent + 1) ++ itemChars (indent + 1) items ++
      lineBreak indent ++ [']']
  | .object [] => "\x7b\x7d".toList
  | .object ((name, value) :: members) =>
    '\x7b' :: lineBreak (indent + 1) ++ quoted name ++ ": ".toList ++ value.chars (indent + 1) ++
      memberChars (indent + 1) members ++ lineBreak indent ++ ['\x7d']
termination_by structural v => v

/-- The items each with a comma before it, on lines of their own. -/
def itemChars (indent : Nat) : List Value → List Char
  | [] => []
  | item :: items => ',' :: lineBreak indent ++ item.chars indent ++ itemChars indent items
termination_by structural items => items

def memberChars (indent : Nat) : List (List Char × Value) → List Char
  | [] => []
  | (name, value) :: members =>
    ',' :: lineBreak indent ++ quoted name ++ ": ".toList ++ value.chars indent ++
      memberChars indent members
termination_by structural members => members

end

/-- The value over several lines, without a line feed at the end. -/
def render (v : Value) : String := String.ofList (v.chars 0)

end Value

end ApiSurface.Json
