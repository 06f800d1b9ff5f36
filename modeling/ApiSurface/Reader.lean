import ApiSurface.Fault
import ApiSurface.Text.Blank
import ApiSurface.Text.Word

namespace ApiSurface

open Text

/-- A reader takes what it reads off the front of a text and hands on the rest, or says what is wrong. -/
abbrev Reader (α : Type) := List Char → Except Fault (α × List Char)

/-- What the reader leaves is a part of the text it was given, at the end of it. -/
def Reader.Keeps {α : Type} (read : Reader α) : Prop :=
  ∀ {s a rest}, read s = .ok (a, rest) → rest <:+ s

/-- The reader also takes at least one character. -/
def Reader.Advances {α : Type} (read : Reader α) : Prop :=
  ∀ {s a rest}, read s = .ok (a, rest) → rest <:+ s ∧ rest.length < s.length

/-- A text that is one thing and nothing more but white space, by a reader of such things. -/
def Reader.whole {α : Type} [ToString α] (kind : String) (read : Reader α) (s : List Char) :
    Except Fault α := do
  let (a, rest) ← read s
  let rest := String.ofList (trim rest)
  if rest.isEmpty then return a
  throw (.malformedSignature s!"unexpected '{rest}' after {kind} '{a}'")

def readIdentifier : Reader (List Char) := fun s =>
  match word? s with
  | some found => .ok found
  | none => .error (.noIdentifier s)

/-- A quote and the identifier directly after it, quote included. -/
def readLifetime : Reader (List Char)
  | '\'' :: rest => (readIdentifier rest).map (Prod.map ('\'' :: ·) id)
  | s => .error (.noIdentifier s)

section Except

variable {ε ε' α β : Type}

theorem bind_eq_ok_iff {x : Except ε α} {f : α → Except ε β} {b : β} :
    (x >>= f) = .ok b ↔ ∃ a, x = .ok a ∧ f a = .ok b := by
  cases x <;> simp [bind, Except.bind]

theorem map_eq_ok_iff {x : Except ε α} {f : α → β} {b : β} :
    x.map f = .ok b ↔ ∃ a, x = .ok a ∧ f a = b := by
  cases x <;> simp [Except.map]

theorem mapError_eq_ok_iff {x : Except ε α} {f : ε → ε'} {a : α} :
    x.mapError f = .ok a ↔ x = .ok a := by
  cases x with
  | ok b => exact ⟨fun h => congrArg _ (Except.ok.inj h), fun h => congrArg _ (Except.ok.inj h)⟩
  | error e => exact ⟨fun h => (nomatch h), fun h => (nomatch h)⟩

end Except

theorem readIdentifier_eq_ok_iff {s : List Char} {found : List Char × List Char} :
    readIdentifier s = .ok found ↔ word? s = some found := by
  unfold readIdentifier
  split <;> simp_all

/-- A lifetime that was read is a quote and an identifier, and it stood in front. -/
theorem eq_of_readLifetime {s l rest : List Char} (h : readLifetime s = .ok (l, rest)) :
    s = l ++ rest ∧ ∃ word, l = '\'' :: word ∧ isIdentifier word = true := by
  unfold readLifetime at h
  split at h
  · rename_i after
    obtain ⟨⟨word, after⟩, hw, hl⟩ := map_eq_ok_iff.1 h
    simp only [Prod.map, id_eq, Prod.mk.injEq] at hl
    obtain ⟨rfl, rfl⟩ := hl
    have := word?_eq_some (readIdentifier_eq_ok_iff.1 hw)
    exact ⟨by simp [this.1], word, rfl, this.2.1⟩
  · simp at h

end ApiSurface
