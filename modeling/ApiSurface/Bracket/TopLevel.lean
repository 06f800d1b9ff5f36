import ApiSurface.Bracket
import ApiSurface.Text.Blank
import ApiSurface.Text.Word

namespace ApiSurface

open Text

/-- The depth after `c`, of a walk that stands at `depth` after `prev`. Brackets of all kinds count
together, and a closer that opens nothing leaves the depth at zero. -/
def Bracket.step (depth : Nat) (prev c : Char) : Nat :=
  if (ofOpener? c).isSome then depth + 1
  else if c = '>' ∧ prev = '-' then depth
  else if (ofCloser? c).isSome then depth - 1
  else depth

namespace TopLevel

open ApiSurface.Bracket

/-- The character that stands before the first one of a text: none that matters. -/
def start : Char := '\x00'

/-- The pieces between the separators outside brackets: the first piece and those after it. -/
def piecesFrom (sep : Char) : (depth : Nat) → (prev : Char) → List Char →
    List Char × List (List Char)
  | _, _, [] => ([], [])
  | depth, prev, c :: rest =>
    let (piece, more) := piecesFrom sep (step depth prev c) c rest
    if depth = 0 ∧ c = sep then ([], piece :: more) else (c :: piece, more)

/-- The text cut at every separator outside brackets; `sep` between the pieces gives it back. -/
def pieces (sep : Char) (s : List Char) : List (List Char) :=
  let (piece, more) := piecesFrom sep 0 start s
  piece :: more

/-- The pieces trimmed, and the empty ones, as after a last comma, left out. -/
def split (sep : Char) (s : List Char) : List (List Char) :=
  ((pieces sep s).map trim).filter (!·.isEmpty)

def splitOnceFrom (sep : Char) : (depth : Nat) → (prev : Char) → List Char →
    List Char × Option (List Char)
  | _, _, [] => ([], none)
  | depth, prev, c :: rest =>
    if depth = 0 ∧ c = sep then ([], some rest)
    else (splitOnceFrom sep (step depth prev c) c rest).map (c :: ·) id

def splitOnce (sep : Char) (s : List Char) : List Char × Option (List Char) :=
  splitOnceFrom sep 0 start s

/-- Where the keyword `kw` and white space after it begin `s`, the text from that white space on. -/
def spacedKeyword? (kw s : List Char) : Option (List Char) :=
  (keyword? kw s).filter fun rest => rest.head?.any isBlank

def splitKeywordFrom (kw : List Char) : (depth : Nat) → (prev : Char) → List Char →
    Option (List Char × List Char)
  | _, _, [] => none
  | depth, prev, c :: rest =>
    match if depth = 0 ∧ isWordChar prev = false then spacedKeyword? kw (c :: rest) else none with
    | some after => some ([], after)
    | none => (splitKeywordFrom kw (step depth prev c) c rest).map (Prod.map (c :: ·) id)

/-- The text before and after the first keyword `kw` outside brackets that white space follows. -/
def splitKeyword? (kw s : List Char) : Option (List Char × List Char) :=
  splitKeywordFrom kw 0 start s

/-- The depth after `c` of a walk over a header, which counts no braces. -/
def headerStep (depth : Nat) (prev c : Char) : Nat :=
  if ofOpener? c = some .curly ∨ ofCloser? c = some .curly then depth else step depth prev c

def whereWord : List Char := "where".toList

/-- Whether a header ends in front of `c :: rest`: at a brace, a semicolon or the word `where`. -/
def endsHeader (prev c : Char) (rest : List Char) : Bool :=
  c == '\x7b' || c == ';' || (!isWordChar prev && (keyword? whereWord (c :: rest)).isSome)

def headerFrom : (depth : Nat) → (prev : Char) → List Char → List Char × List Char
  | _, _, [] => ([], [])
  | depth, prev, c :: rest =>
    if depth = 0 ∧ endsHeader prev c rest = true then ([], c :: rest)
    else (headerFrom (headerStep depth prev c) c rest).map (c :: ·) id

/-- The text up to the first brace, semicolon or word `where` outside brackets, and the text from
there on. -/
def header (s : List Char) : List Char × List Char := headerFrom 0 start s

end TopLevel

end ApiSurface
