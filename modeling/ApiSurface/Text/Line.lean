import ApiSurface.Text.Lead

namespace ApiSurface.Text

/-- The first line without its ending, a line feed or a carriage return and a line feed. -/
def firstLine : List Char → List Char
  | [] => []
  | '\n' :: _ => []
  | '\r' :: '\n' :: _ => []
  | c :: rest => c :: firstLine rest

/-- The text after the first line feed, empty if there is none. -/
def afterLine : List Char → List Char
  | [] => []
  | c :: rest => if c = '\n' then rest else afterLine rest

/-- The text after the first occurrence of `mark`, empty if there is none. -/
def afterMark (mark : List Char) : List Char → List Char
  | [] => []
  | c :: rest =>
    match strip? mark (c :: rest) with
    | some after => after
    | none => afterMark mark rest

def lineFeeds (s : List Char) : Nat := s.count '\n'

/-- The number of the line in front of `rest`, for a reader that stood on `line` in front of `s` and
left `rest` of it. -/
def lineAt (line : Nat) (s rest : List Char) : Nat := line + (lineFeeds s - lineFeeds rest)

theorem afterLine_suffix (s : List Char) : afterLine s <:+ s := by
  induction s with
  | nil => exact List.suffix_rfl
  | cons c rest ih =>
    rw [afterLine]
    split
    · exact List.suffix_cons _ _
    · exact ih.trans (List.suffix_cons _ _)

theorem afterMark_suffix (mark s : List Char) : afterMark mark s <:+ s := by
  induction s with
  | nil => exact List.suffix_rfl
  | cons c rest ih =>
    rw [afterMark]
    split
    · exact strip?_suffix ‹_›
    · exact ih.trans (List.suffix_cons _ _)

/-- Only the text passed over moves the line number. -/
theorem lineAt_append (line : Nat) (passed rest : List Char) :
    lineAt line (passed ++ rest) rest = line + lineFeeds passed := by
  simp [lineAt, lineFeeds]

end ApiSurface.Text
