import Mathlib.Data.List.Forall2

namespace ApiSurface.Text

inductive Atom where
  | one (p : Char → Bool)
  | optional (p : Char → Bool)
  | many (p : Char → Bool)

namespace Atom

/-- The texts that the atom stands for. -/
def Takes : Atom → List Char → Prop
  | one p, taken => ∃ c, taken = [c] ∧ p c = true
  | optional p, taken => taken = [] ∨ ∃ c, taken = [c] ∧ p c = true
  | many p, taken => ∀ c ∈ taken, p c = true

def cutOne (p : Char → Bool) : List Char → List (List Char × List Char)
  | [] => []
  | c :: rest => if p c then [([c], rest)] else []

def cutMany (p : Char → Bool) : List Char → List (List Char × List Char)
  | [] => [([], [])]
  | c :: rest =>
    (if p c then (cutMany p rest).map (Prod.map (c :: ·) id) else []) ++ [([], c :: rest)]

/-- The ways to take the atom off the front of a text, the longest first. -/
def cuts : Atom → List Char → List (List Char × List Char)
  | one p, s => cutOne p s
  | optional p, s => cutOne p s ++ [([], s)]
  | many p, s => cutMany p s

variable {p : Char → Bool} {s taken rest : List Char}

theorem mem_cutOne_iff :
    (taken, rest) ∈ cutOne p s ↔ s = taken ++ rest ∧ ∃ c, taken = [c] ∧ p c = true := by
  cases s with
  | nil =>
    simp only [cutOne, List.not_mem_nil, false_iff]
    rintro ⟨hs, c, rfl, -⟩
    cases hs
  | cons c s =>
    rw [cutOne]
    split
    · rename_i hc
      simp only [List.mem_singleton, Prod.mk.injEq]
      constructor
      · rintro ⟨rfl, rfl⟩
        exact ⟨rfl, c, rfl, hc⟩
      · rintro ⟨hs, d, rfl, -⟩
        cases hs
        exact ⟨rfl, rfl⟩
    · rename_i hc
      simp only [List.not_mem_nil, false_iff]
      rintro ⟨hs, d, rfl, hd⟩
      cases hs
      exact hc hd

theorem mem_cutMany_cons {c : Char} : (taken, rest) ∈ cutMany p (c :: s) ↔
    (p c = true ∧ ∃ more, taken = c :: more ∧ (more, rest) ∈ cutMany p s) ∨
      (taken = [] ∧ rest = c :: s) := by
  rw [cutMany, List.mem_append, List.mem_singleton, Prod.mk.injEq]
  refine or_congr ?_ Iff.rfl
  split
  · rename_i hc
    rw [List.mem_map]
    constructor
    · rintro ⟨⟨more, rest'⟩, hmem, he⟩
      cases he
      exact ⟨hc, more, rfl, hmem⟩
    · rintro ⟨-, more, rfl, hmem⟩
      exact ⟨(more, rest), hmem, rfl⟩
  · rename_i hc
    simp [hc]

theorem mem_cutMany_iff :
    (taken, rest) ∈ cutMany p s ↔ s = taken ++ rest ∧ ∀ c ∈ taken, p c = true := by
  induction s generalizing taken with
  | nil =>
    rw [cutMany, List.mem_singleton, Prod.mk.injEq]
    constructor
    · rintro ⟨rfl, rfl⟩
      exact ⟨rfl, by simp⟩
    · rintro ⟨hs, -⟩
      exact List.append_eq_nil_iff.1 hs.symm
  | cons c s ih =>
    rw [mem_cutMany_cons]
    constructor
    · rintro (⟨hc, more, rfl, hmem⟩ | ⟨rfl, rfl⟩)
      · obtain ⟨rfl, hmore⟩ := ih.1 hmem
        exact ⟨rfl, List.forall_mem_cons.2 ⟨hc, hmore⟩⟩
      · exact ⟨rfl, by simp⟩
    · rintro ⟨hs, hall⟩
      cases taken with
      | nil => exact .inr ⟨rfl, hs.symm⟩
      | cons d more =>
        cases hs
        obtain ⟨hc, hmore⟩ := List.forall_mem_cons.1 hall
        exact .inl ⟨hc, more, rfl, ih.2 ⟨rfl, hmore⟩⟩

theorem mem_cuts_iff {a : Atom} : (taken, rest) ∈ a.cuts s ↔ s = taken ++ rest ∧ a.Takes taken := by
  cases a with
  | one p => exact mem_cutOne_iff
  | many p => exact mem_cutMany_iff
  | optional p =>
    rw [cuts, List.mem_append, mem_cutOne_iff, List.mem_singleton, Prod.mk.injEq]
    constructor
    · rintro (⟨hs, h⟩ | ⟨rfl, rfl⟩)
      · exact ⟨hs, .inr h⟩
      · exact ⟨rfl, .inl rfl⟩
    · rintro ⟨hs, rfl | h⟩
      · exact .inr ⟨rfl, hs.symm⟩
      · exact .inl ⟨hs, h⟩

end Atom

/-- The ways in which atoms one after another make up a text, each way with the part that each atom
takes, in the order of preference. -/
def waysToMatch : List Atom → List Char → List (List (List Char))
  | [], s => if s.isEmpty then [[]] else []
  | a :: pattern, s =>
    (a.cuts s).flatMap fun cut => (waysToMatch pattern cut.2).map (cut.1 :: ·)

/-- The ways to match are those that cut the text into parts which the atoms stand for. -/
theorem mem_waysToMatch_iff {pattern : List Atom} {s : List Char} {parts : List (List Char)} :
    parts ∈ waysToMatch pattern s ↔ s = parts.flatten ∧ List.Forall₂ Atom.Takes pattern parts := by
  induction pattern generalizing s parts with
  | nil =>
    rw [waysToMatch, List.forall₂_nil_left_iff]
    cases s with
    | nil => simp +contextual
    | cons c s =>
      rw [if_neg (by simp)]
      simp only [List.not_mem_nil, false_iff]
      rintro ⟨hs, rfl⟩
      cases hs
  | cons a pattern ih =>
    rw [waysToMatch, List.mem_flatMap]
    constructor
    · rintro ⟨⟨taken, rest⟩, hcut, hmap⟩
      obtain ⟨more, hmem, rfl⟩ := List.mem_map.1 hmap
      obtain ⟨rfl, htakes⟩ := Atom.mem_cuts_iff.1 hcut
      obtain ⟨hrest, hmore⟩ := ih.1 hmem
      exact ⟨by rw [List.flatten_cons, ← hrest], .cons htakes hmore⟩
    · rintro ⟨rfl, hparts⟩
      cases hparts with
      | cons htakes hmore =>
        refine ⟨(_, _), Atom.mem_cuts_iff.2 ⟨List.flatten_cons, htakes⟩, ?_⟩
        exact List.mem_map.2 ⟨_, ih.2 ⟨rfl, hmore⟩, rfl⟩

end ApiSurface.Text
