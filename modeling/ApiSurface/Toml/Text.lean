import ApiSurface.Text.Digit

namespace ApiSurface.Toml

def isBlank (c : Char) : Bool := c == ' ' || c == '\t'

def skipBlanks (s : List Char) : List Char := s.dropWhile isBlank

/-- Whether a character may stand in comments and strings; a line break is none of these. -/
def isPlain (c : Char) : Bool := c == '\t' || (' ' ≤ c && c != '\x7f')

def newline? : List Char → Option (List Char)
  | '\n' :: rest => some rest
  | '\r' :: '\n' :: rest => some rest
  | _ => none

def skipBreaks : List Char → List Char
  | '\r' :: '\n' :: rest => skipBreaks rest
  | c :: rest => if isBlank c || c == '\n' then skipBreaks rest else c :: rest
  | [] => []

/-- The letters after a backslash and what they stand for. -/
def shortEscapes : List (Char × Char) :=
  [('b', '\x08'), ('t', '\t'), ('n', '\n'), ('f', '\x0c'), ('r', '\r'), ('"', '"'), ('\\', '\\')]

/-- The character whose number hexadecimal digits write. -/
def character? (digits : List Char) : Option Char :=
  let n := Text.numberIn 16 digits
  if digits.all Text.isHexDigit ∧ n.isValidChar then some (Char.ofNat n) else none

/-- The character that an escape stands for, and the text after it; the backslash is passed. -/
def escaped? : List Char → Option (Char × List Char)
  | 'u' :: a :: b :: c :: d :: rest => (character? [a, b, c, d]).map (·, rest)
  | 'U' :: a :: b :: c :: d :: e :: f :: g :: h :: rest =>
    (character? [a, b, c, d, e, f, g, h]).map (·, rest)
  | letter :: rest => (shortEscapes.lookup letter).map (·, rest)
  | [] => none

theorem escaped?_length {s rest : List Char} {c : Char} (h : escaped? s = some (c, rest)) :
    rest.length < s.length := by
  unfold escaped? at h
  split at h <;> simp only [Option.map_eq_some_iff, Prod.mk.injEq, reduceCtorEq] at h
  all_goals
    obtain ⟨_, _, _, rfl⟩ := h
    simp only [List.length_cons]
    omega

theorem newline?_length {s rest : List Char} (h : newline? s = some rest) :
    rest.length < s.length := by
  unfold newline? at h
  split at h <;> simp only [Option.some.injEq, reduceCtorEq] at h
  all_goals
    subst h
    simp only [List.length_cons]
    omega

theorem length_skipBreaks_le (s : List Char) : (skipBreaks s).length ≤ s.length := by
  fun_induction skipBreaks s with
  | case1 rest ih => simp only [List.length_cons]; omega
  | case2 c rest _ _ ih => simp only [List.length_cons]; omega
  | case3 => exact Nat.le_refl _
  | case4 => exact Nat.le_refl _

theorem length_skipBlanks_le (s : List Char) : (skipBlanks s).length ≤ s.length :=
  (List.dropWhile_suffix _).length_le

/-- What is left of a text after blanks to the end of a line and all blanks and line breaks there. -/
def afterBreak? (s : List Char) : Option (List Char) := (newline? (skipBlanks s)).map skipBreaks

theorem afterBreak?_length {s rest : List Char} (h : afterBreak? s = some rest) :
    rest.length < s.length := by
  obtain ⟨after, hn, rfl⟩ := Option.map_eq_some_iff.1 h
  have := newline?_length hn
  have := length_skipBlanks_le s
  have := length_skipBreaks_le after
  omega

def push (c : Char) (r : Option (List Char × List Char)) : Option (List Char × List Char) :=
  r.map (Prod.map (c :: ·) id)

def basicText (s : List Char) : Option (List Char × List Char) :=
  match s with
  | [] => none
  | '"' :: rest => some ([], rest)
  | '\\' :: rest =>
    match _h : escaped? rest with
    | some (c, rest) => push c (basicText rest)
    | none => none
  | c :: rest => if isPlain c then push c (basicText rest) else none
termination_by s.length
decreasing_by
  · have := escaped?_length _h
    simp only [List.length_cons]
    omega
  · simp

def literalText : List Char → Option (List Char × List Char)
  | [] => none
  | '\'' :: rest => some ([], rest)
  | c :: rest => if isPlain c then push c (literalText rest) else none

/-- What follows three quotes that end a long string: of up to two more, each belongs to it. -/
def closing (quote : Char) : List Char → List Char × List Char
  | a :: b :: rest =>
    if a = quote ∧ b = quote then ([a, b], rest)
    else if a = quote then ([a], b :: rest)
    else ([], a :: b :: rest)
  | [a] => if a = quote then ([a], []) else ([], [a])
  | [] => ([], [])

/-- The text up to the three closing quotes. A backslash at the end of a line takes away all blanks
and line breaks after it. -/
def longBasicText (s : List Char) : Option (List Char × List Char) :=
  match s with
  | [] => none
  | '"' :: '"' :: '"' :: rest => some (closing '"' rest)
  | '\\' :: rest =>
    match _hb : afterBreak? rest with
    | some rest => longBasicText rest
    | none =>
      match _he : escaped? rest with
      | some (c, rest) => push c (longBasicText rest)
      | none => none
  | '\r' :: '\n' :: rest => push '\n' (longBasicText rest)
  | c :: rest => if isPlain c || c == '\n' then push c (longBasicText rest) else none
termination_by s.length
decreasing_by
  · have := afterBreak?_length _hb
    simp only [List.length_cons]
    omega
  · have := escaped?_length _he
    simp only [List.length_cons]
    omega
  · simp only [List.length_cons]
    omega
  · simp

/-- The text up to the three closing quotes, without escapes. -/
def longLiteralText : List Char → Option (List Char × List Char)
  | [] => none
  | '\'' :: '\'' :: '\'' :: rest => some (closing '\'' rest)
  | '\r' :: '\n' :: rest => push '\n' (longLiteralText rest)
  | c :: rest => if isPlain c || c == '\n' then push c (longLiteralText rest) else none

/-- A text without the line break in front that a long string may begin with. -/
def afterOpening (s : List Char) : List Char := (newline? s).getD s

/-- The string in front of a text, in quotes of one of the four kinds. -/
def string? : List Char → Option (List Char × List Char)
  | '"' :: '"' :: '"' :: rest => longBasicText (afterOpening rest)
  | '\'' :: '\'' :: '\'' :: rest => longLiteralText (afterOpening rest)
  | '"' :: rest => basicText rest
  | '\'' :: rest => literalText rest
  | _ => none

end ApiSurface.Toml
