import ApiSurface.Proofs.Nesting.Keyword
import ApiSurface.Source.Function

namespace ApiSurface

open Text TopLevel
open ApiSurface.Bracket (IsNested nest nestStep outside outsideFrom outsideFrom_append)

theorem TopLevel.forall_isWordChar_whereWord : ∀ c ∈ whereWord, isWordChar c = true := by decide

theorem TopLevel.endsHeader_append {t : List Char} (ht : continuesWord t = false) (prev c : Char)
    (rest : List Char) : endsHeader prev c (rest ++ t) = endsHeader prev c rest := by
  rw [endsHeader, ← List.cons_append, keyword?_append_right forall_isWordChar_whereWord ht,
    Option.isSome_map, endsHeader]

/-- Text of which all is header: its brackets are nested, and no brace, semicolon or word `where`
stands outside them. -/
structure IsHeader (s : List Char) : Prop where
  nested : IsNested s
  runsOn : ∀ place ∈ outside s, endsHeader place.1 place.2.1 place.2.2 = false

/-- A word in front matters to no place but the first. -/
theorem TopLevel.endsHeader_start {prev c : Char} {rest : List Char}
    (h : endsHeader start c rest = false) : endsHeader prev c rest = false := by
  simp only [endsHeader, Bool.or_eq_false_iff, Bool.and_eq_false_iff] at h ⊢
  refine ⟨h.1, .inr ?_⟩
  exact h.2.resolve_left (by decide)

namespace IsHeader

variable {s t : List Char}

theorem runsOnFrom (h : IsHeader s) (prev : Char) :
    ∀ place ∈ outsideFrom [] prev s, endsHeader place.1 place.2.1 place.2.2 = false := by
  intro place hp
  obtain hp | ⟨-, hp⟩ := h.nested.mem_outside hp
  · exact h.runsOn place hp
  · exact endsHeader_start (h.runsOn (start, place.2) hp)

theorem nil : IsHeader [] := ⟨rfl, by simp [outside, outsideFrom]⟩

theorem append (hs : IsHeader s) (ht : IsHeader t) (hw : continuesWord t = false) :
    IsHeader (s ++ t) := by
  refine ⟨hs.nested.append ht.nested, ?_⟩
  intro place hp
  rw [outside, outsideFrom_append hs.nested, List.mem_append] at hp
  rcases hp with hp | hp
  · obtain ⟨place', hp', rfl⟩ := List.mem_map.1 hp
    dsimp only
    rw [endsHeader_append hw]
    exact hs.runsOn place' hp'
  · exact ht.runsOnFrom _ place hp

/-- A blank goes on no word. -/
theorem blank_cons (h : IsHeader s) : IsHeader (' ' :: s) := by
  have hs : nestStep [] start ' ' = some [] := rfl
  constructor
  · rw [IsNested, nest, hs, Option.bind_some]
    exact h.nested.nest [] ' '
  · intro place hp
    simp only [outside, outsideFrom, if_pos, hs, Option.elim_some, List.cons_append,
      List.nil_append, List.mem_cons] at hp
    rcases hp with rfl | hp
    · have hk : keyword? whereWord (' ' :: s) = none := keyword?_eq_none_of_head (by decide)
      simp [endsHeader, hk]
    · exact h.runsOnFrom ' ' place hp

/-- Without a brace, a semicolon and the word `where` outside its brackets a text is all header. -/
theorem of_lacksWord (hw : LacksWord whereWord s)
    (hm : ∀ place ∈ outside s, place.2.1 ≠ '\x7b' ∧ place.2.1 ≠ ';') : IsHeader s := by
  refine ⟨hw.nested, ?_⟩
  intro place hp
  have hk : (!isWordChar place.1 && (keyword? whereWord (place.2.1 :: place.2.2)).isSome) = false := by
    by_cases hprev : isWordChar place.1 = true
    · rw [hprev]
      rfl
    · rw [hw.absent place hp (by simpa using hprev), Option.isSome_none, Bool.and_false]
  rw [endsHeader, hk]
  simp [hm place hp]

/-- A word other than `where` is header all through. -/
theorem of_isIdentifier (hs : isIdentifier s = true) (hne : s ≠ whereWord) : IsHeader s := by
  apply of_lacksWord (LacksWord.of_isIdentifier (by decide) hs hne)
  intro place hp
  have hc := (Bracket.mem_outsideFrom_word (forall_isWordChar_of_isIdentifier hs) hp).1
  exact ⟨ne_of_isWordChar hc rfl, ne_of_isWordChar hc rfl⟩

theorem header_append (h : IsHeader s) {c : Char} (hw : continuesWord (c :: t) = false)
    (hc : endsHeader (lastAfter start s) c t = true) : header (s ++ c :: t) = (s, c :: t) := by
  have hs : ∀ place ∈ outside s, endsHeader place.1 place.2.1 (place.2.2 ++ c :: t) = false := by
    intro place hp
    rw [endsHeader_append hw]
    exact h.runsOn place hp
  have := headerFrom_of_nest h.nested (by simp) (c :: t) hs
  rw [List.countP_nil, headerFrom, if_pos ⟨rfl, hc⟩] at this
  rw [header, this]
  simp

/-- A header ends in front of a brace. -/
theorem header_brace (h : IsHeader s) (t : List Char) :
    header (s ++ '\x7b' :: t) = (s, '\x7b' :: t) :=
  h.header_append rfl rfl

/-- Behind a blank a header ends at a word too. -/
theorem header_blank_append (h : IsHeader s) {c : Char} (hc : endsHeader ' ' c t = true) :
    header (s ++ ' ' :: c :: t) = (s ++ [' '], c :: t) := by
  have hs : ∀ place ∈ outside s,
      endsHeader place.1 place.2.1 (place.2.2 ++ ' ' :: c :: t) = false := by
    intro place hp
    rw [endsHeader_append (continuesWord_blank _)]
    exact h.runsOn place hp
  have hblank (prev : Char) : endsHeader prev ' ' (c :: t) = false := by
    have hk : keyword? whereWord (' ' :: c :: t) = none := keyword?_eq_none_of_head (by decide)
    simp [endsHeader, hk]
  have hstep (prev : Char) : headerStep 0 prev ' ' = 0 := by
    simp [headerStep, Bracket.step, Bracket.ofOpener?, Bracket.ofCloser?]
  have hall := headerFrom_of_nest h.nested (by simp) (' ' :: c :: t) hs
  rw [List.countP_nil, headerFrom, hblank, if_neg (by simp), hstep, headerFrom,
    if_pos ⟨rfl, hc⟩] at hall
  rw [header]
  exact hall

end IsHeader

theorem afterWhere_brace (s : List Char) : afterWhere ('\x7b' :: s) = '\x7b' :: s := by
  have hk : keyword? whereWord ('\x7b' :: s) = none := keyword?_eq_none_of_head (by decide)
  rw [afterWhere, hk]

end ApiSurface
