import ApiSurface.Bracket.TopLevel

namespace ApiSurface

open TopLevel

/-- The character that a walk over `s` leaves behind it. -/
def lastAfter : (prev : Char) → List Char → Char
  | prev, [] => prev
  | _, c :: rest => lastAfter c rest

theorem lastAfter_append (prev : Char) (s t : List Char) :
    lastAfter prev (s ++ t) = lastAfter (lastAfter prev s) t := by
  induction s generalizing prev with
  | nil => rfl
  | cons c s ih => exact ih c

theorem lastAfter_eq (prev : Char) (s : List Char) : lastAfter prev s = s.getLast?.getD prev := by
  induction s generalizing prev with
  | nil => rfl
  | cons c s ih => rw [lastAfter, ih, List.getLast?_cons, Option.getD_some]

namespace Bracket

/-- The brackets open after `c`; none if `c` closes another kind than the innermost. The `>` of an
arrow `->` closes nothing. -/
def nestStep (opened : List Bracket) (prev c : Char) : Option (List Bracket) :=
  match ofOpener? c with
  | some b => some (b :: opened)
  | none =>
    match ofCloser? c with
    | none => some opened
    | some b =>
      if c = '>' ∧ prev = '-' then some opened
      else if opened.head? = some b then some opened.tail else none

def nest : (opened : List Bracket) → (prev : Char) → List Char → Option (List Bracket)
  | opened, _, [] => some opened
  | opened, prev, c :: rest => (nestStep opened prev c).bind fun opened => nest opened c rest

/-- All brackets of the text are closed, each by its own kind and in order. -/
def IsNested (s : List Char) : Prop := nest [] start s = some []

instance (s : List Char) : Decidable (IsNested s) := inferInstanceAs (Decidable (_ = _))

/-- The places of a text outside all brackets: the character before each, the character there, and
the text after it. -/
def outsideFrom : (opened : List Bracket) → (prev : Char) → List Char →
    List (Char × Char × List Char)
  | _, _, [] => []
  | opened, prev, c :: rest =>
    (if opened = [] then [(prev, c, rest)] else []) ++
      (nestStep opened prev c).elim [] fun opened => outsideFrom opened c rest

def outside (s : List Char) : List (Char × Char × List Char) := outsideFrom [] start s

section Kinds

variable {b b' : Bracket} {prev c : Char}

theorem opener_inj : b.opener = b'.opener ↔ b = b' := by
  cases b <;> cases b' <;> decide

theorem closer_inj : b.closer = b'.closer ↔ b = b' := by
  cases b <;> cases b' <;> decide

theorem opener_ne_closer : b.opener ≠ b'.closer := by
  cases b <;> cases b' <;> decide

theorem ofCloser?_closer (b : Bracket) : ofCloser? b.closer = some b := by cases b <;> rfl

theorem ofCloser?_eq_some_iff : ofCloser? c = some b ↔ c = b.closer := by
  constructor
  · intro h
    unfold ofCloser? at h
    split at h
    case h_5 => cases h
    all_goals
      rw [← Option.some.inj h]
      rfl
  · intro h
    rw [h, ofCloser?_closer]

theorem closes_eq_true_iff :
    b.closes prev c = true ↔ c = b.closer ∧ ¬(b = .angle ∧ prev = '-') := by
  cases b <;> simp [closes]

theorem closes_opener : b.closes prev b'.opener = false := by
  rw [Bool.eq_false_iff, Ne, closes_eq_true_iff]
  intro h
  exact opener_ne_closer h.1

theorem ofOpener?_closer : ofOpener? b.closer = none := by cases b <;> rfl

theorem isWordChar_opener (b : Bracket) : Text.isWordChar b.opener = false := by
  cases b <;> decide

theorem isWordChar_closer (b : Bracket) : Text.isWordChar b.closer = false := by
  cases b <;> decide

theorem isBlank_opener (b : Bracket) : Text.isBlank b.opener = false := by cases b <;> decide

theorem isBlank_closer (b : Bracket) : Text.isBlank b.closer = false := by cases b <;> decide

/-- A class of characters without brackets. -/
theorem not_bracket_of_class {p : Char → Bool} (ho : ∀ b : Bracket, p b.opener = false)
    (hc : ∀ b : Bracket, p b.closer = false) (h : p c = true) :
    ofOpener? c = none ∧ ofCloser? c = none := by
  constructor
  · rw [Option.eq_none_iff_forall_ne_some]
    intro b hb
    rw [ofOpener?_eq_some_iff.1 hb, ho] at h
    cases h
  · rw [Option.eq_none_iff_forall_ne_some]
    intro b hb
    rw [ofCloser?_eq_some_iff.1 hb, hc] at h
    cases h

theorem not_bracket_of_isWordChar (h : Text.isWordChar c = true) :
    ofOpener? c = none ∧ ofCloser? c = none :=
  not_bracket_of_class isWordChar_opener isWordChar_closer h

theorem not_bracket_of_isBlank (h : Text.isBlank c = true) :
    ofOpener? c = none ∧ ofCloser? c = none :=
  not_bracket_of_class isBlank_opener isBlank_closer h

end Kinds

section Step

variable {opened opened' : List Bracket} {prev c : Char}

theorem nestStep_of_isWordChar (h : Text.isWordChar c = true) :
    nestStep opened prev c = some opened := by
  obtain ⟨ho, hc⟩ := not_bracket_of_isWordChar h
  simp [nestStep, ho, hc]

/-- A walk goes on past an opener, past a closer of the innermost bracket, and past every character
that is no bracket. -/
theorem nestStep_cases (h : nestStep opened prev c = some opened') :
    (∃ b : Bracket, c = b.opener ∧ opened' = b :: opened) ∨
    (∃ b : Bracket, b.closes prev c = true ∧ opened = b :: opened') ∨
    (opened' = opened ∧ ofOpener? c = none ∧ ∀ b : Bracket, b.closes prev c = false) := by
  unfold nestStep at h
  split at h
  · rename_i b hb
    exact .inl ⟨b, ofOpener?_eq_some_iff.1 hb, (Option.some.inj h).symm⟩
  · rename_i ho
    split at h
    · rename_i hc
      refine .inr (.inr ⟨(Option.some.inj h).symm, ho, ?_⟩)
      intro b
      rw [Bool.eq_false_iff, Ne, closes_eq_true_iff]
      intro hb
      rw [hb.1, ofCloser?_closer] at hc
      cases hc
    · rename_i b hb
      rw [ofCloser?_eq_some_iff] at hb
      split at h
      · rename_i ha
        refine .inr (.inr ⟨(Option.some.inj h).symm, ho, ?_⟩)
        intro b'
        rw [Bool.eq_false_iff, Ne, closes_eq_true_iff]
        intro hb'
        exact hb'.2 ⟨closer_inj.1 (hb'.1.symm.trans ha.1), ha.2⟩
      · rename_i ha
        split at h
        · rename_i hh
          refine .inr (.inl ⟨b, closes_eq_true_iff.2 ⟨hb, ?_⟩, ?_⟩)
          · intro hangle
            rw [hangle.1] at hb
            exact ha ⟨hb, hangle.2⟩
          · cases opened with
            | nil => cases hh
            | cons b' rest => rw [Option.some.inj hh, ← Option.some.inj h, List.tail_cons]
        · cases h

theorem nestStep_append (h : nestStep opened prev c = some opened') (base : List Bracket) :
    nestStep (opened ++ base) prev c = some (opened' ++ base) := by
  unfold nestStep at h ⊢
  cases ho : ofOpener? c with
  | some b =>
    rw [ho] at h
    obtain rfl := Option.some.inj h
    rfl
  | none =>
    rw [ho] at h
    cases hc : ofCloser? c with
    | none =>
      rw [hc] at h
      obtain rfl := Option.some.inj h
      rfl
    | some b =>
      rw [hc] at h
      dsimp only at h ⊢
      split at h
      · rename_i ha
        rw [if_pos ha, Option.some.inj h]
      · rename_i ha
        rw [if_neg ha]
        cases opened with
        | nil => simp at h
        | cons b' rest => simpa using h

theorem step_of_not_bracket (ho : ofOpener? c = none) (hn : ∀ b : Bracket, b.closes prev c = false)
    (depth : Nat) : step depth prev c = depth := by
  have hc (ha : ¬(c = '>' ∧ prev = '-')) : ofCloser? c = none := by
    rw [Option.eq_none_iff_forall_ne_some]
    intro b hb
    rw [ofCloser?_eq_some_iff] at hb
    have hangle : ¬(b = .angle ∧ prev = '-') := by
      intro h
      rw [h.1] at hb
      exact ha ⟨hb, h.2⟩
    have hb' : b.closes prev c = true := closes_eq_true_iff.2 ⟨hb, hangle⟩
    rw [hn b] at hb'
    cases hb'
  unfold step
  rw [ho]
  by_cases ha : c = '>' ∧ prev = '-'
  · rw [if_neg (by simp), if_pos ha]
  · rw [if_neg (by simp), if_neg ha, hc ha, if_neg (by simp)]

/-- The depth of all kinds together is the number of open brackets. -/
theorem step_of_nestStep (h : nestStep opened prev c = some opened') :
    step opened.length prev c = opened'.length := by
  obtain ⟨b, rfl, rfl⟩ | ⟨b, hc, rfl⟩ | ⟨rfl, ho, hn⟩ := nestStep_cases h
  · simp [step, ofOpener?_opener]
  · obtain ⟨rfl, ha⟩ := closes_eq_true_iff.1 hc
    have hnot : ¬(b.closer = '>' ∧ prev = '-') := fun hp => ha ⟨closer_inj.1 hp.1, hp.2⟩
    simp [step, ofOpener?_closer, ofCloser?_closer, if_neg hnot]
  · exact step_of_not_bracket ho hn _

/-- The depth of a header is the number of open brackets that are no braces. -/
theorem headerStep_of_nestStep (h : nestStep opened prev c = some opened') :
    headerStep (opened.countP (· ≠ .curly)) prev c = opened'.countP (· ≠ .curly) := by
  obtain ⟨b, rfl, rfl⟩ | ⟨b, hc, rfl⟩ | ⟨rfl, ho, hn⟩ := nestStep_cases h
  · cases b <;> simp [headerStep, step, opener, ofOpener?, ofCloser?]
  · obtain ⟨rfl, ha⟩ := closes_eq_true_iff.1 hc
    cases b <;> simp_all [headerStep, step, closer, ofOpener?, ofCloser?]
  · unfold headerStep
    rw [step_of_not_bracket ho hn, ite_self]

end Step

section Walk

variable {opened opened' : List Bracket} {prev : Char} {s t : List Char}

theorem nest_append (opened : List Bracket) (prev : Char) (s t : List Char) :
    nest opened prev (s ++ t) =
      (nest opened prev s).bind fun opened => nest opened (lastAfter prev s) t := by
  induction s generalizing opened prev with
  | nil => rfl
  | cons c s ih =>
    simp only [List.cons_append, nest, Option.bind_assoc, lastAfter]
    congr 1
    funext opened
    exact ih opened c

/-- Brackets that were open before the walk stay open below those that it opens. -/
theorem nest_base (h : nest opened prev s = some opened') (base : List Bracket) :
    nest (opened ++ base) prev s = some (opened' ++ base) := by
  induction s generalizing opened prev with
  | nil =>
    obtain rfl := Option.some.inj h
    rfl
  | cons c s ih =>
    obtain ⟨middle, hm, hs⟩ := Option.bind_eq_some_iff.1 h
    rw [nest, nestStep_append hm, Option.bind_some]
    exact ih hs

/-- Nested text does not begin with a closing angle, so it does not matter what stands before it. -/
theorem IsNested.nestStep_head {c : Char} (h : IsNested (c :: s)) (prev : Char) :
    nestStep [] prev c = nestStep [] start c := by
  have hc : c ≠ '>' := by
    intro hc
    rw [hc] at h
    cases h
  unfold nestStep
  simp only [hc, false_and, if_false]

/-- Nested text leaves every walk as it was, whatever stands before it. -/
theorem IsNested.nest (h : IsNested s) (opened : List Bracket) (prev : Char) :
    nest opened prev s = some opened := by
  have hp : Bracket.nest [] prev s = some [] := by
    cases s with
    | nil => rfl
    | cons c s =>
      exact (congrArg (Option.bind · _) (h.nestStep_head prev)).trans h
  exact nest_base hp opened

theorem isNested_nil : IsNested [] := rfl

theorem IsNested.append (hs : IsNested s) (ht : IsNested t) : IsNested (s ++ t) := by
  unfold IsNested
  rw [nest_append, hs.nest, Option.bind_some, ht.nest]

/-- Text without brackets is nested. -/
theorem isNested_of_forall (h : ∀ c ∈ s, ofOpener? c = none ∧ ofCloser? c = none) : IsNested s := by
  have go (prev : Char) : Bracket.nest [] prev s = some [] := by
    induction s generalizing prev with
    | nil => rfl
    | cons c s ih =>
      have hc := h c List.mem_cons_self
      have hn : nestStep [] prev c = some [] := by simp [nestStep, hc.1, hc.2]
      rw [Bracket.nest, hn, Option.bind_some]
      exact ih (fun c hc => h c (List.mem_cons_of_mem _ hc)) c
  exact go start

/-- A closer after nested text closes the bracket before it, unless it makes an arrow. -/
theorem nestStep_closer (b : Bracket) (opened : List Bracket) {prev : Char}
    (hp : b = .angle → prev ≠ '-') : nestStep (b :: opened) prev b.closer = some opened := by
  have hn : ¬(b.closer = '>' ∧ prev = '-') := fun h => hp (closer_inj.1 h.1) h.2
  simp [nestStep, ofOpener?_closer, ofCloser?_closer, if_neg hn]

theorem nestStep_opener (b : Bracket) (opened : List Bracket) (prev : Char) :
    nestStep opened prev b.opener = some (b :: opened) := by
  simp [nestStep, ofOpener?_opener]

theorem lastAfter_opener_ne (b : Bracket) {s : List Char} (hs : lastAfter start s ≠ '-') :
    lastAfter b.opener s ≠ '-' := by
  cases s with
  | nil => cases b <;> decide
  | cons c s => exact hs

theorem outsideFrom_append (h : nest opened prev s = some opened') (t : List Char) :
    outsideFrom opened prev (s ++ t) =
      (outsideFrom opened prev s).map (fun place => (place.1, place.2.1, place.2.2 ++ t)) ++
        outsideFrom opened' (lastAfter prev s) t := by
  induction s generalizing opened prev with
  | nil =>
    obtain rfl := Option.some.inj h
    rfl
  | cons c s ih =>
    obtain ⟨middle, hm, hs⟩ := Option.bind_eq_some_iff.1 h
    simp only [List.cons_append, outsideFrom, hm, Option.elim_some, lastAfter, ih hs]
    split <;> simp

/-- Inside brackets that stay open no place is outside. -/
theorem outsideFrom_base (h : nest opened prev s = some opened') {base : List Bracket}
    (hb : base ≠ []) : outsideFrom (opened ++ base) prev s = [] := by
  induction s generalizing opened prev with
  | nil => rfl
  | cons c s ih =>
    obtain ⟨middle, hm, hs⟩ := Option.bind_eq_some_iff.1 h
    simp [outsideFrom, nestStep_append hm, ih hs, hb]

/-- What stands before nested text changes no place outside but the character before the first. -/
theorem IsNested.mem_outside (h : IsNested s) {place : Char × Char × List Char}
    (hp : place ∈ outsideFrom [] prev s) :
    place ∈ outside s ∨ place.1 = prev ∧ (start, place.2) ∈ outside s := by
  cases s with
  | nil => exact absurd hp List.not_mem_nil
  | cons c s =>
    have hs := h.nestStep_head prev
    simp only [outside, outsideFrom, if_pos, hs, List.cons_append, List.nil_append,
      List.mem_cons] at hp ⊢
    rcases hp with rfl | hp
    · exact .inr ⟨rfl, .inl rfl⟩
    · exact .inl (.inr hp)

end Walk

/-- Text that every scanner passes as one unit: its brackets are nested, only characters of the class
`p` stand outside them, and it does not end in a hyphen, which could make an arrow of what follows. -/
structure Passes (p : Char → Bool) (s : List Char) : Prop where
  nested : IsNested s
  last : lastAfter start s ≠ '-'
  outside : ∀ place ∈ outside s, p place.2.1 = true

namespace Passes

variable {p q : Char → Bool} {s t : List Char}

theorem mono (h : Passes p s) (hq : ∀ c, p c = true → q c = true) : Passes q s :=
  ⟨h.nested, h.last, fun place hp => hq _ (h.outside place hp)⟩

theorem nil : Passes p [] := ⟨isNested_nil, by decide, by simp [Bracket.outside, outsideFrom]⟩

theorem append (hs : Passes p s) (ht : Passes p t) : Passes p (s ++ t) := by
  refine ⟨hs.nested.append ht.nested, ?_, ?_⟩
  · rw [lastAfter_append]
    cases t with
    | nil => exact hs.last
    | cons c t => exact ht.last
  · intro place hp
    rw [Bracket.outside, outsideFrom_append hs.nested, List.mem_append] at hp
    rcases hp with hp | hp
    · obtain ⟨place', hp', rfl⟩ := List.mem_map.1 hp
      exact hs.outside place' hp'
    · obtain hp | ⟨-, hp⟩ := ht.nested.mem_outside hp
      · exact ht.outside place hp
      · exact ht.outside (start, place.2) hp

theorem single {c : Char} (ho : ofOpener? c = none) (hc : ofCloser? c = none) (hd : c ≠ '-')
    (hp : p c = true) : Passes p [c] := by
  have hs : nestStep [] start c = some [] := by simp [nestStep, ho, hc]
  refine ⟨by simp [IsNested, nest, hs], hd, ?_⟩
  intro place h
  simp only [Bracket.outside, outsideFrom, if_pos, hs, Option.elim_some, List.append_nil,
    List.mem_singleton] at h
  rwa [h]

theorem of_forall
    (h : ∀ c ∈ s, ofOpener? c = none ∧ ofCloser? c = none ∧ c ≠ '-' ∧ p c = true) : Passes p s := by
  induction s with
  | nil => exact nil
  | cons c s ih =>
    obtain ⟨ho, hc, hd, hp⟩ := h c List.mem_cons_self
    exact (single ho hc hd hp).append (ih fun d hd => h d (List.mem_cons_of_mem _ hd))

/-- Nested text in brackets passes whatever stands inside. -/
theorem enclose (b : Bracket) (hs : IsNested s) (hl : b = .angle → lastAfter start s ≠ '-')
    (hb : p b.opener = true) : Passes p (b.opener :: s ++ [b.closer]) := by
  have hc : nestStep [b] (lastAfter b.opener s) b.closer = some [] :=
    nestStep_closer b [] fun h => lastAfter_opener_ne b (hl h)
  refine ⟨?_, ?_, ?_⟩
  · unfold IsNested
    rw [List.cons_append, nest, nestStep_opener, Option.bind_some, nest_append, hs.nest,
      Option.bind_some, nest, hc, Option.bind_some, nest]
  · rw [List.cons_append, lastAfter, lastAfter_append]
    change b.closer ≠ '-'
    cases b <;> decide
  · intro place hp
    have hi : outsideFrom [b] b.opener s = [] :=
      outsideFrom_base (hs.nest [] b.opener) (List.cons_ne_nil b [])
    simp only [Bracket.outside, List.cons_append, outsideFrom, if_pos, nestStep_opener,
      Option.elim_some, outsideFrom_append (hs.nest [b] b.opener), hi, hc, List.map_nil,
      List.nil_append, List.mem_cons] at hp
    rcases hp with rfl | hp
    · exact hb
    · simp at hp

end Passes

end Bracket

end ApiSurface
