namespace ApiSurface.Text

/-- What follows `lead` in a text that begins with it. -/
def strip? : (lead s : List Char) → Option (List Char)
  | [], s => some s
  | _ :: _, [] => none
  | a :: lead, c :: s => if a = c then strip? lead s else none

def startsWith (lead s : List Char) : Bool := (strip? lead s).isSome

theorem strip?_eq_some_iff {lead s rest : List Char} :
    strip? lead s = some rest ↔ s = lead ++ rest := by
  induction lead generalizing s with
  | nil => simp [strip?, eq_comm]
  | cons a lead ih =>
    cases s with
    | nil => simp [strip?]
    | cons c s =>
      by_cases h : a = c
      · simp [strip?, h, ih]
      · simp [strip?, h, Ne.symm h]

theorem strip?_append (lead rest : List Char) : strip? lead (lead ++ rest) = some rest :=
  strip?_eq_some_iff.2 rfl

theorem strip?_suffix {lead s rest : List Char} (h : strip? lead s = some rest) : rest <:+ s :=
  ⟨lead, (strip?_eq_some_iff.1 h).symm⟩

end ApiSurface.Text
