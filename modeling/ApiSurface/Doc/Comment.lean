import ApiSurface.Text.Blank
import ApiSurface.Text.Lead

namespace ApiSurface

open Text

/-- A section: its title and the lines under it, without the blanks at their ends. -/
structure Section where
  title : List Char
  lines : List (List Char)
  deriving DecidableEq, Repr

structure DocComment where
  /-- The lines before the first header, trimmed. -/
  description : List (List Char)
  sections : List Section
  deriving DecidableEq, Repr

/-- Whether two texts differ at most in the case of ASCII letters. -/
def sameIgnoringCase (s t : List Char) : Bool := s.map Char.toLower == t.map Char.toLower

def isFence (line : List Char) : Bool := startsWith "```".toList (trimStart line)

def headerTitle? (line : List Char) : Option (List Char) :=
  match trim line with
  | '#' :: rest =>
    let rest := rest.dropWhile (· == '#')
    if (rest.head?.any isBlank) && !(trim rest).isEmpty then some (trim rest) else none
  | _ => none

/-- The title that a line gives, where headers count only outside of fenced code. -/
def titleAt? (inFence : Bool) (line : List Char) : Option (List Char) :=
  if inFence then none else headerTitle? line

namespace Section

/-- The lines inside fences, of lines that begin inside a fence or not. -/
def fencedLines (inFence : Bool) : List (List Char) → List (List Char)
  | [] => []
  | line :: rest =>
    if isFence line then fencedLines (!inFence) rest
    else if inFence then line :: fencedLines inFence rest
    else fencedLines inFence rest

/-- The text of the fenced code, each line with a line feed. A section begins outside of fences. -/
def code (s : Section) : List Char := (fencedLines false s.lines).flatMap (· ++ ['\n'])

def hasCode (s : Section) : Bool := !isBlankText s.code

end Section

namespace DocComment

/-- The lines before the first header, as they are, and the sections. -/
def split (inFence : Bool) : List (List Char) → List (List Char) × List Section
  | [] => ([], [])
  | line :: rest =>
    let (before, sections) := split (inFence != isFence line) rest
    match titleAt? inFence line with
    | some title => ([], ⟨title, before.map trimEnd⟩ :: sections)
    | none => (line :: before, sections)

def ofLines (lines : List (List Char)) : DocComment :=
  let (before, sections) := split false lines
  ⟨before.map trim, sections⟩

def hasDescription (d : DocComment) : Bool := d.description.any (!·.isEmpty)

def isEmpty (d : DocComment) : Bool := d.sections.isEmpty && !d.hasDescription

def section? (d : DocComment) (title : String) : Option Section :=
  d.sections.find? fun s => sameIgnoringCase s.title title.toList

/-- The section of examples, whose title may be plural. -/
def example? (d : DocComment) : Option Section := d.section? "Example" <|> d.section? "Examples"

end DocComment

end ApiSurface
