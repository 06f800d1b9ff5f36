import ApiSurface.Reader
import ApiSurface.Text.Blank

namespace ApiSurface

open Text

structure Modifiers where
  isReference : Bool
  lifetime : Option String
  isMutable : Bool
  deriving DecidableEq, Repr

namespace Modifiers

def mutWord : List Char := "mut".toList

/-- The lifetime and the word `mut`, each with the blank after it. -/
def qualifierChars (lifetime : Option String) (isMutable : Bool) : List Char :=
  (lifetime.elim [] fun l => l.toList ++ [' ']) ++ if isMutable then mutWord ++ [' '] else []

def chars (m : Modifiers) : List Char :=
  (if m.isReference then ['&'] else []) ++ qualifierChars m.lifetime m.isMutable

instance : ToString Modifiers := ⟨fun m => String.ofList m.chars⟩

/-- The ampersand, if there is one, and the text after it and its blanks. -/
def readAmpersand : List Char → Bool × List Char
  | '&' :: rest => (true, trimStart rest)
  | s => (false, s)

/-- The lifetime, if a quote stands in front; then an identifier has to follow. -/
def readLifetime? : Reader (Option String)
  | '\'' :: rest =>
    (readLifetime ('\'' :: rest)).map fun (l, after) => (some (String.ofList l), trimStart after)
  | s => .ok (none, s)

def readMut (s : List Char) : Bool × List Char :=
  match keyword? mutWord s with
  | some rest => (true, trimStart rest)
  | none => (false, s)

/-- All modifiers in front, with the white space around them. -/
def read : Reader Modifiers := fun s =>
  let start := readAmpersand (trimStart s)
  (readLifetime? start.2).map fun (lifetime, rest) =>
    (⟨start.1, lifetime, (readMut rest).1⟩, (readMut rest).2)

end Modifiers

end ApiSurface
