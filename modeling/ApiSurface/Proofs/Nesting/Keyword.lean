import ApiSurface.Proofs.Nesting.Scanners

namespace ApiSurface

open Text TopLevel
open ApiSurface.Bracket (IsNested Passes nest nestStep outside outsideFrom outsideFrom_append)

/-- A word is outside brackets all through, and only at its first character no word stands before. -/
theorem Bracket.mem_outsideFrom_word {prev : Char} {s : List Char}
    (hs : ∀ c ∈ s, isWordChar c = true) {place : Char × Char × List Char}
    (hp : place ∈ outsideFrom [] prev s) : isWordChar place.2.1 = true ∧
      (isWordChar place.1 = true ∨ place.1 = prev ∧ place.2.1 :: place.2.2 = s) := by
  induction s generalizing prev with
  | nil => exact absurd hp List.not_mem_nil
  | cons c s ih =>
    have hc := hs c List.mem_cons_self
    have hstep : nestStep [] prev c = some [] := nestStep_of_isWordChar hc
    simp only [outsideFrom, if_pos, hstep, Option.elim_some, List.cons_append, List.nil_append,
      List.mem_cons] at hp
    rcases hp with rfl | hp
    · exact ⟨hc, .inr ⟨rfl, rfl⟩⟩
    · obtain ⟨hword, hfirst⟩ := ih (fun d hd => hs d (List.mem_cons_of_mem _ hd)) hp
      refine ⟨hword, .inl ?_⟩
      rcases hfirst with hprev | ⟨hprev, -⟩
      · exact hprev
      · rw [hprev]
        exact hc

theorem isNested_of_isIdentifier {s : List Char} (h : isIdentifier s = true) : IsNested s :=
  Bracket.isNested_of_forall fun c hc =>
    Bracket.not_bracket_of_isWordChar (forall_isWordChar_of_isIdentifier h c hc)

/-- The characters that no word goes on with. -/
def endsWord (c : Char) : Bool := !isWordChar c

/-- Nested text in which the word `kw` stands nowhere outside brackets. -/
structure LacksWord (kw s : List Char) : Prop where
  nested : IsNested s
  absent : ∀ place ∈ outside s, isWordChar place.1 = false →
    keyword? kw (place.2.1 :: place.2.2) = none

namespace LacksWord

variable {kw s t word : List Char}

theorem nil : LacksWord kw [] := ⟨rfl, fun _ hp => absurd hp List.not_mem_nil⟩

/-- What stands in front can only go on a word. -/
theorem absentFrom (h : LacksWord kw s) (prev : Char) : ∀ place ∈ outsideFrom [] prev s,
    isWordChar place.1 = false → keyword? kw (place.2.1 :: place.2.2) = none := by
  intro place hp hprev
  obtain hp | ⟨-, hp⟩ := h.nested.mem_outside hp
  · exact h.absent place hp hprev
  · exact h.absent (start, place.2) hp rfl

section Parts

variable (hk : isIdentifier kw = true)
include hk

/-- What no word goes on into hides no keyword and makes none. -/
theorem keyword?_append_eq_none (h : LacksWord kw s) (ht : continuesWord t = false) :
    ∀ place ∈ outside s, isWordChar place.1 = false →
      keyword? kw (place.2.1 :: (place.2.2 ++ t)) = none := by
  intro place hp hprev
  rw [← List.cons_append, keyword?_append_right (forall_isWordChar_of_isIdentifier hk) ht,
    h.absent place hp hprev, Option.map_none]

theorem append (hs : LacksWord kw s) (ht : LacksWord kw t) (hw : continuesWord t = false) :
    LacksWord kw (s ++ t) := by
  refine ⟨hs.nested.append ht.nested, ?_⟩
  intro place hp
  rw [outside, outsideFrom_append hs.nested, List.mem_append] at hp
  rcases hp with hp | hp
  · obtain ⟨place', hp', rfl⟩ := List.mem_map.1 hp
    exact hs.keyword?_append_eq_none hk hw place' hp'
  · exact ht.absentFrom _ place hp

/-- Where no word goes on, none begins with the keyword. -/
theorem passes_append (hs : Passes endsWord s) (ht : LacksWord kw t) : LacksWord kw (s ++ t) := by
  refine ⟨hs.nested.append ht.nested, ?_⟩
  intro place hp
  rw [outside, outsideFrom_append hs.nested, List.mem_append] at hp
  rcases hp with hp | hp
  · obtain ⟨place', hp', rfl⟩ := List.mem_map.1 hp
    have hc : isWordChar place'.2.1 = false := by
      simpa [endsWord] using hs.outside place' hp'
    exact fun _ => keyword?_eq_none_of_not_isWordChar hk hc _
  · exact ht.absentFrom _ place hp

theorem of_passes (hs : Passes endsWord s) : LacksWord kw s := by
  have h := passes_append hk hs nil
  rwa [List.append_nil] at h

theorem of_isIdentifier (hw : isIdentifier word = true) (hne : word ≠ kw) : LacksWord kw word := by
  have hword := forall_isWordChar_of_isIdentifier hw
  have hnone : keyword? kw (word ++ []) = none :=
    keyword?_eq_none_of_ne (forall_isWordChar_of_isIdentifier hk) hword rfl hne
  rw [List.append_nil] at hnone
  refine ⟨isNested_of_isIdentifier hw, ?_⟩
  intro place hp hprev
  rcases (Bracket.mem_outsideFrom_word hword hp).2 with hprev' | ⟨-, he⟩
  · rw [hprev'] at hprev
    cases hprev
  · rw [he]
    exact hnone

/-- A word with a blank after it. -/
theorem word_blank_append (hw : isIdentifier word = true) (hne : word ≠ kw) (ht : LacksWord kw t) :
    LacksWord kw (word ++ ' ' :: t) := by
  have hblank : Passes endsWord [' '] := .single rfl rfl (by decide) rfl
  exact (LacksWord.of_isIdentifier hk hw hne).append hk (passes_append hk hblank ht) rfl

/-- Pieces with marks between them. -/
theorem intercalate {α : Type} {f : α → List Char} {as : List α} {sep : List Char}
    (hs : Passes endsWord sep) (hw : ∀ rest, continuesWord (sep ++ rest) = false)
    (h : ∀ a ∈ as, LacksWord kw (f a)) : LacksWord kw (sep.intercalate (as.map f)) := by
  induction as with
  | nil => exact nil
  | cons a as ih =>
    have ha := h a List.mem_cons_self
    have hmore := ih fun b hb => h b (List.mem_cons_of_mem a hb)
    cases as with
    | nil => rwa [List.map_singleton, List.intercalate_singleton]
    | cons b as =>
      rw [List.map_cons, List.map_cons, List.intercalate_cons_cons, List.append_assoc]
      exact ha.append hk (passes_append hk hs hmore) (hw _)

end Parts

end LacksWord

namespace TopLevel

variable {kw s : List Char} (hk : isIdentifier kw = true)
include hk

/-- A search for a keyword goes on past text that lacks it. -/
theorem splitKeyword?_append_of_lacksWord (h : LacksWord kw s) {t : List Char}
    (ht : continuesWord t = false) : splitKeyword? kw (s ++ t) =
      (splitKeywordFrom kw 0 (lastAfter start s) t).map (Prod.map (s ++ ·) id) := by
  refine splitKeywordFrom_of_nest h.nested t fun place hp hprev => ?_
  rw [spacedKeyword?, h.keyword?_append_eq_none hk ht place hp hprev, Option.filter_none]

theorem splitKeyword?_eq_none (h : LacksWord kw s) : splitKeyword? kw s = none := by
  have hsplit := splitKeyword?_append_of_lacksWord hk h (t := []) rfl
  rwa [List.append_nil] at hsplit

/-- The text is split at the keyword behind text that lacks it. -/
theorem splitKeyword?_append (h : LacksWord kw s) (t : List Char) :
    splitKeyword? kw (s ++ ' ' :: (kw ++ ' ' :: t)) = some (s ++ [' '], ' ' :: t) := by
  have hblank : keyword? kw (' ' :: (kw ++ ' ' :: t)) = none :=
    keyword?_eq_none_of_not_isWordChar hk rfl _
  have hfound : spacedKeyword? kw (kw ++ ' ' :: t) = some (' ' :: t) := by
    rw [spacedKeyword?, keyword?_append kw (continuesWord_blank t)]
    rfl
  have hsplit : splitKeywordFrom kw 0 ' ' (kw ++ ' ' :: t) = some ([], ' ' :: t) := by
    cases kw with
    | nil => cases hk
    | cons k kw =>
      rw [List.cons_append] at hfound ⊢
      rw [splitKeywordFrom, if_pos ⟨rfl, rfl⟩, hfound]
  have hstep (prev : Char) : Bracket.step 0 prev ' ' = 0 := by
    simp [Bracket.step, Bracket.ofOpener?, Bracket.ofCloser?]
  rw [splitKeyword?_append_of_lacksWord hk h (continuesWord_blank _), splitKeywordFrom,
    spacedKeyword?, hblank, Option.filter_none, ite_self, hstep, hsplit]
  rfl

end TopLevel

end ApiSurface
