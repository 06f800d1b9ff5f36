import ApiSurface.Text.Lead

namespace ApiSurface.Text

/-- The piece of a certain form that a text begins with, and the text after it. -/
def Scan : Type := List Char → Option (List Char × List Char)

namespace Scan

def one (p : Char → Bool) : Scan := fun s =>
  match s with
  | c :: rest => if p c then some ([c], rest) else none
  | [] => none

def char (c : Char) : Scan := one (· == c)

def word (letters : String) : Scan := fun s => (strip? letters.toList s).map (letters.toList, ·)

/-- The longest run of characters of a class, at least one. -/
def run (p : Char → Bool) : Scan := fun s =>
  match s.takeWhile p with
  | [] => none
  | piece => some (piece, s.dropWhile p)

/-- A piece of one form and a piece of another after it, as one piece. -/
def andThen (first second : Scan) : Scan := fun s => do
  let (a, s) ← first s
  let (b, s) ← second s
  return (a ++ b, s)

/-- A piece of one form, or else of another. -/
def orElse (first second : Scan) : Scan := fun s => (first s).or (second s)

instance : Append Scan := ⟨andThen⟩

instance : OrElse Scan := ⟨fun first second => first.orElse (second ())⟩

def optional (scan : Scan) : Scan := fun s => (scan s).or (some ([], s))

def satisfying (scan : Scan) (p : List Char → Bool) : Scan := fun s =>
  (scan s).filter fun found => p found.1

end Scan

end ApiSurface.Text
