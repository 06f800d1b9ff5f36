import ApiSurface.Doc.Comment
import ApiSurface.Text.Word

namespace ApiSurface

open Text

structure ArgumentEntry where
  name : List Char
  /-- May be empty. -/
  description : List Char
  deriving DecidableEq, Repr

def isBullet (c : Char) : Bool := c == '*' || c == '-'

/-- The text after the backquote that may stand in front. -/
def afterBackquote (s : List Char) : List Char := (strip? "`".toList s).getD s

/-- The description after the colon, if a colon stands in front and the text after it and its blanks
is on one line. -/
def descriptionAfter? : List Char → Option (List Char)
  | ':' :: rest =>
    let text := trimStart rest
    if text.contains '\n' then none else some (trim text)
  | _ => none

/-- The entry that a trimmed line with a bullet in front makes. -/
def ArgumentEntry.ofBullet? : List Char → Option ArgumentEntry
  | [] => none
  | _ :: rest => do
    let (name, rest) ← word? (afterBackquote (trimStart rest))
    let description ← descriptionAfter? (trimStart (afterBackquote rest))
    return ⟨name, description⟩

namespace DocComment

def argumentLines (d : DocComment) : List (List Char) :=
  match d.section? "Arguments" with
  | some s => (s.lines.map trim).filter fun line => line.head?.any isBullet
  | none => []

def argumentEntries (d : DocComment) : List ArgumentEntry :=
  d.argumentLines.filterMap ArgumentEntry.ofBullet?

def malformedArguments (d : DocComment) : List (List Char) :=
  d.argumentLines.filter fun line => (ArgumentEntry.ofBullet? line).isNone

end DocComment

end ApiSurface
