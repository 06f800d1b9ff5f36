import ApiSurface.Text.Lead

namespace ApiSurface.Text

def isWordStart (c : Char) : Bool := c.isAlpha || c == '_'

def isWordChar (c : Char) : Bool := c.isAlphanum || c == '_'

def isIdentifier : List Char → Bool
  | [] => false
  | c :: rest => isWordStart c && rest.all isWordChar

/-- The longest identifier in front and the text after it. -/
def word? : List Char → Option (List Char × List Char)
  | [] => none
  | c :: rest =>
    if isWordStart c then some (c :: rest.takeWhile isWordChar, rest.dropWhile isWordChar) else none

/-- Whether a text goes on the word before it. -/
def continuesWord : List Char → Bool
  | [] => false
  | c :: _ => isWordChar c

/-- What follows the keyword `kw`; none if the word in front is longer or another one. -/
def keyword? (kw s : List Char) : Option (List Char) :=
  (strip? kw s).filter (!continuesWord ·)

theorem isWordChar_of_isWordStart {c : Char} (h : isWordStart c = true) : isWordChar c = true := by
  simp only [isWordStart, isWordChar, Char.isAlphanum, Bool.or_eq_true] at *
  exact h.imp .inl id

theorem word?_eq_some {s word rest : List Char} (h : word? s = some (word, rest)) :
    s = word ++ rest ∧ isIdentifier word = true ∧ continuesWord rest = false := by
  cases s with
  | nil => simp [word?] at h
  | cons c s =>
    simp only [word?] at h
    split at h
    · simp only [Option.some.injEq, Prod.mk.injEq] at h
      obtain ⟨rfl, rfl⟩ := h
      refine ⟨by simp, by simp_all [isIdentifier], ?_⟩
      cases hd : s.dropWhile isWordChar with
      | nil => rfl
      | cons d r =>
        have := List.head?_dropWhile_not isWordChar s
        rw [hd] at this
        simpa [continuesWord] using this
    · simp at h

/-- An identifier is read back whole wherever the next character cannot go on with it. -/
theorem word?_append {word rest : List Char} (hw : isIdentifier word = true)
    (hr : continuesWord rest = false) : word? (word ++ rest) = some (word, rest) := by
  cases word with
  | nil => simp [isIdentifier] at hw
  | cons c word =>
    simp only [isIdentifier, Bool.and_eq_true, List.all_eq_true] at hw
    have ht : rest.takeWhile isWordChar = [] ∧ rest.dropWhile isWordChar = rest := by
      cases rest with
      | nil => simp
      | cons d r => simp_all [continuesWord]
    simp [word?, hw.1, List.takeWhile_append_of_pos hw.2, List.dropWhile_append_of_pos hw.2, ht]

theorem keyword?_eq_some_iff {kw s rest : List Char} :
    keyword? kw s = some rest ↔ s = kw ++ rest ∧ continuesWord rest = false := by
  simp [keyword?, strip?_eq_some_iff]

end ApiSurface.Text
