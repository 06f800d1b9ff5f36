import ApiSurface.Toml.Date
import ApiSurface.Toml.Number
import ApiSurface.Toml.Text
import ApiSurface.Toml.Value

namespace ApiSurface.Toml

def isNameChar (c : Char) : Bool := c.isAlphanum || c == '_' || c == '-'

/-- One name: bare, or in quotes of one line. -/
def name? (s : List Char) : Option (String × List Char) :=
  match s with
  | '"' :: rest => (basicText rest).map (Prod.map String.ofList id)
  | '\'' :: rest => (literalText rest).map (Prod.map String.ofList id)
  | s =>
    match s.takeWhile isNameChar with
    | [] => none
    | letters => some (String.ofList letters, s.dropWhile isNameChar)

/-- How deep arrays and tables in braces may lie within one another. -/
def depthLimit : Nat := 79

def partLimit : Nat := 79

/-- The names after the first one, each after a dot, fewer than `n`. -/
def moreNames : (n : Nat) → List Char → Option (List String × List Char)
  | 0, _ => none
  | n + 1, s =>
    match skipBlanks s with
    | '.' :: rest => do
      let (name, rest) ← name? (skipBlanks rest)
      let (names, rest) ← moreNames n rest
      return (name :: names, rest)
    | rest => some ([], rest)

/-- A name with dots: its first part, the parts after it and the text from the next mark on. -/
def dottedName (s : List Char) : Option ((String × List String) × List Char) := do
  let (first, rest) ← name? (skipBlanks s)
  let (more, rest) ← moreNames partLimit rest
  return ((first, more), rest)

/-- The text after a comment, if one stands in front. -/
def skipComment : List Char → List Char
  | '#' :: rest => rest.dropWhile isPlain
  | s => s

/-- The text after the end of a line, blanks and a comment before it included. -/
def lineEnd (s : List Char) : Option (List Char) :=
  match skipComment (skipBlanks s) with
  | [] => some []
  | s => newline? s

/-- The text after blanks, line breaks and comments; within an array all may stand between items. -/
def skipSpace : (n : Nat) → List Char → List Char
  | 0, s => s
  | n + 1, s =>
    match skipBreaks s with
    | '#' :: rest =>
      match newline? (rest.dropWhile isPlain) with
      | some rest => skipSpace n rest
      | none => '#' :: rest
    | s => s

/-- A truth value, a date or a number. Dates are tried before numbers, for they begin like them. -/
def bare : Text.Scan := .word "true" <|> .word "false" <|> dateTime <|> float <|> integer

def bareValue (s : List Char) : Option (Value × List Char) :=
  (bare s).map (Prod.map (.bare ∘ String.ofList) id)

/-- The table of the settings between braces. -/
def tableOf (settings : List ((String × List String) × Value)) : Option Value :=
  (settings.foldlM (fun entries s => Entries.addDotted s.1.1 s.1.2 s.2 entries) []).map
    (.table .braces)

mutual

/-- The value in front of a text of at most `n` characters, with at most `room` levels of arrays and
tables in it. -/
def valueWithin : (n room : Nat) → List Char → Option (Value × List Char)
  | 0, _, _ => none
  | n + 1, room, s =>
    match room, s with
    | room + 1, '[' :: rest => (itemsWithin n room rest).map (Prod.map .array id)
    | room + 1, '\x7b' :: rest =>
      match skipBlanks rest with
      | '\x7d' :: rest => some (.table .braces [], rest)
      | rest => do
        let (settings, rest) ← settingsWithin n room rest
        return (← tableOf settings, rest)
    | _, s =>
      if s.head? = some '"' ∨ s.head? = some '\'' then
        (string? s).map (Prod.map (.text ∘ String.ofList) id)
      else bareValue s
termination_by structural n => n

/-- The items up to the closing bracket; a comma may stand after the last one. -/
def itemsWithin : (n room : Nat) → List Char → Option (List Value × List Char)
  | 0, _, _ => none
  | n + 1, room, s =>
    match skipSpace s.length s with
    | ']' :: rest => some ([], rest)
    | s => do
      let (item, rest) ← valueWithin n room s
      match skipSpace rest.length rest with
      | ',' :: rest => do
        let (items, rest) ← itemsWithin n room rest
        return (item :: items, rest)
      | ']' :: rest => return ([item], rest)
      | _ => none
termination_by structural n => n

/-- The settings up to the closing brace, at least one. -/
def settingsWithin : (n room : Nat) → List Char →
    Option (List ((String × List String) × Value) × List Char)
  | 0, _, _ => none
  | n + 1, room, s => do
    match ← dottedName s with
    | (key, '=' :: rest) => do
      let (value, rest) ← valueWithin n room (skipBlanks rest)
      match skipBlanks rest with
      | ',' :: rest => do
        let (settings, rest) ← settingsWithin n room rest
        return ((key, value) :: settings, rest)
      | '\x7d' :: rest => return ([(key, value)], rest)
      | _ => none
    | _ => none
termination_by structural n => n

end

def value? (s : List Char) : Option (Value × List Char) := valueWithin (s.length + 1) depthLimit s

/-- What statements have filled so far, and the way to the table that the next one fills. -/
structure Document where
  entries : Entries
  way : List String

/-- The way to the table that holds the last part of a dotted name, and that part. -/
def splitLast (first : String) : List String → List String × String
  | [] => ([], first)
  | next :: more => (splitLast next more).map (first :: ·) id

/-- One statement and its line. -/
def statement (d : Document) (s : List Char) : Option (Document × List Char) :=
  match s with
  | '[' :: '[' :: rest => do
    match ← dottedName rest with
    | ((first, more), ']' :: ']' :: rest) =>
      let (way, last) := splitLast first more
      return (⟨← Entries.changeAt (Entries.openNext last) way d.entries, first :: more⟩,
        ← lineEnd rest)
    | _ => none
  | '[' :: rest => do
    match ← dottedName rest with
    | ((first, more), ']' :: rest) =>
      let (way, last) := splitLast first more
      return (⟨← Entries.changeAt (Entries.openTable last) way d.entries, first :: more⟩,
        ← lineEnd rest)
    | _ => none
  | s => do
    match ← dottedName s with
    | ((first, more), '=' :: rest) =>
      let (value, rest) ← value? (skipBlanks rest)
      return (⟨← Entries.changeAt (Entries.addDotted first more value) d.way d.entries, d.way⟩,
        ← lineEnd rest)
    | _ => none

/-- Reads statements, at most `n` lines of them; a line may hold no statement. -/
def statementsWithin : (n : Nat) → Document → List Char → Option Entries
  | 0, _, _ => none
  | n + 1, d, s =>
    match skipBlanks s with
    | [] => some d.entries
    | s =>
      match lineEnd s with
      | some rest => statementsWithin n d rest
      | none => do
        let (d, rest) ← statement d s
        statementsWithin n d rest

/-- The entries of a document; a byte order mark in front is passed over. -/
def parse (s : List Char) : Option Entries :=
  let s := if s.head? = some '\uFEFF' then s.drop 1 else s
  statementsWithin (s.length + 1) ⟨[], []⟩ s

end ApiSurface.Toml
