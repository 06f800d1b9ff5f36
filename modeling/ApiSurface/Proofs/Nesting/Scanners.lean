import ApiSurface.Proofs.Nesting.Balance
import ApiSurface.Proofs.Text
import Mathlib.Data.List.Infix

namespace ApiSurface

open Text TopLevel

namespace Bracket

/-- As many closers as openers of one kind, and in no prefix more closers than openers. -/
def IsBalanced (b : Bracket) (s : List Char) : Prop :=
  (∀ p, p <+: s → p.count b.closer ≤ p.count b.opener) ∧ s.count b.closer = s.count b.opener

instance (b : Bracket) (s : List Char) : Decidable (IsBalanced b s) :=
  decidable_of_iff ((∀ p ∈ s.inits, p.count b.closer ≤ p.count b.opener) ∧
    s.count b.closer = s.count b.opener) (by simp [IsBalanced, List.mem_inits])

section Balanced

variable {b : Bracket} {s t : List Char}

theorem isBalanced_of_not_mem (ho : b.opener ∉ s) (hc : b.closer ∉ s) : b.IsBalanced s := by
  constructor
  · intro p hp
    have hcloser : b.closer ∉ p := by
      intro h
      exact hc (hp.subset h)
    rw [List.count_eq_zero_of_not_mem hcloser]
    exact Nat.zero_le _
  · rw [List.count_eq_zero_of_not_mem ho, List.count_eq_zero_of_not_mem hc]

/-- Balanced texts one after the other are balanced: the first leaves no bracket open. -/
theorem IsBalanced.append (hs : b.IsBalanced s) (ht : b.IsBalanced t) : b.IsBalanced (s ++ t) := by
  constructor
  · intro p hp
    obtain h | ⟨q, rfl⟩ := List.prefix_or_prefix_of_prefix hp (List.prefix_append s t)
    · exact hs.1 p h
    · have hq := ht.1 q ((List.prefix_append_right_inj s).1 hp)
      rw [List.count_append, List.count_append, hs.2]
      exact Nat.add_le_add_left hq _
  · rw [List.count_append, List.count_append, hs.2, ht.2]

theorem IsBalanced.flatMap {α : Type} {f : α → List Char} {l : List α}
    (h : ∀ a ∈ l, b.IsBalanced (f a)) : b.IsBalanced (l.flatMap f) := by
  induction l with
  | nil => exact isBalanced_of_not_mem (List.not_mem_nil) (List.not_mem_nil)
  | cons a l ih =>
    rw [List.flatMap_cons]
    exact (h a List.mem_cons_self).append (ih fun a' ha => h a' (List.mem_cons_of_mem a ha))

theorem IsBalanced.cons (hs : b.IsBalanced s) {c : Char} (ho : b.opener ≠ c) (hc : b.closer ≠ c) :
    b.IsBalanced (c :: s) := by
  have hsingle : b.IsBalanced [c] :=
    isBalanced_of_not_mem (by rwa [List.mem_singleton]) (by rwa [List.mem_singleton])
  exact hsingle.append hs

/-- A bracket around balanced text is balanced. -/
theorem IsBalanced.enclose (hs : b.IsBalanced s) : b.IsBalanced (b.opener :: s ++ [b.closer]) := by
  have hne : b.opener ≠ b.closer := opener_ne_closer
  constructor
  · intro p hp
    cases p with
    | nil => exact Nat.zero_le _
    | cons c p =>
      rw [List.cons_append] at hp
      obtain ⟨rfl, hinside⟩ := List.cons_prefix_cons.1 hp
      rw [List.count_cons_of_ne hne, List.count_cons_self]
      obtain h | ⟨q, rfl⟩ := List.prefix_or_prefix_of_prefix hinside (List.prefix_append s _)
      · exact Nat.le_succ_of_le (hs.1 p h)
      · have hq : q.count b.closer ≤ 1 := by
          have := ((List.prefix_append_right_inj s).1 hinside).sublist.count_le b.closer
          rwa [List.count_singleton_self] at this
        rw [List.count_append, List.count_append, hs.2]
        omega
  · have hopen : ([b.closer] : List Char).count b.opener = 0 :=
      List.count_eq_zero_of_not_mem (by rwa [List.mem_singleton])
    rw [List.count_append, List.count_append, List.count_cons_of_ne hne,
      List.count_singleton_self, List.count_cons_self, hopen, hs.2]

end Balanced

section Enclosed

variable {b : Bracket} {opened opened' : List Bracket} {prev : Char} {s inner after : List Char}

/-- On nested text the balance of one kind is what it leaves open of that kind. -/
theorem balanceFrom_of_nest (b : Bracket) (h : nest opened prev s = some opened') :
    opened.count b + b.balanceFrom prev s = opened'.count b := by
  induction s generalizing opened prev with
  | nil =>
    obtain rfl := Option.some.inj h
    rw [balanceFrom_nil, Int.add_zero]
  | cons c s ih =>
    obtain ⟨middle, hm, hs⟩ := Option.bind_eq_some_iff.1 h
    have hrest := ih hs
    obtain ⟨b', rfl, rfl⟩ | ⟨b', hc, rfl⟩ | ⟨rfl, ho, hn⟩ := nestStep_cases hm
    · by_cases hb : b' = b
      · subst hb
        rw [List.count_cons_self] at hrest
        rw [balanceFrom_opener]
        omega
      · rw [List.count_cons_of_ne hb] at hrest
        rw [balanceFrom_of_passed (fun he => hb (opener_inj.1 he)) (by rw [closes_opener]; simp)]
        exact hrest
    · have hclosed := closes_eq_true_iff.1 hc
      by_cases hb : b' = b
      · subst hb
        rw [List.count_cons_self, balanceFrom_of_closes hc]
        omega
      · have hpass : ¬b.closes prev c = true := fun hx =>
          hb (closer_inj.1 (hclosed.1.symm.trans (closes_eq_true_iff.1 hx).1))
        have hne : c ≠ b.opener := fun he => opener_ne_closer (he.symm.trans hclosed.1)
        rw [List.count_cons_of_ne hb, balanceFrom_of_passed hne hpass]
        exact hrest
    · have hne : c ≠ b.opener := fun he => by
        rw [ofOpener?_eq_some_iff.2 he] at ho
        cases ho
      rw [balanceFrom_of_passed hne (by rw [hn b]; simp)]
      exact hrest

theorem IsNested.staysAbove (h : IsNested s) (b : Bracket) (prev : Char) :
    b.StaysAbove 0 prev s := by
  rintro p ⟨t, rfl⟩
  have hs := h.nest [] prev
  rw [nest_append] at hs
  obtain ⟨opened, hp, -⟩ := Option.bind_eq_some_iff.1 hs
  have hbalance := balanceFrom_of_nest b hp
  rw [List.count_nil] at hbalance
  omega

/-- What a bracket encloses does not depend on the text after its closer. -/
theorem enclosed_closer (h : enclosed (b.opener :: s) = .ok (inner, after)) (rest : List Char) :
    enclosed (b.opener :: inner ++ b.closer :: rest) = .ok (inner, rest) := by
  rw [enclosed, ofOpener?_opener] at h
  rw [List.cons_append, enclosed, ofOpener?_opener]
  exact mapError_eq_ok_iff.2 (readInside_append (mapError_eq_ok_iff.1 h) rest)

theorem enclosed_append (h : enclosed s = .ok (inner, after)) (t : List Char) :
    enclosed (s ++ t) = .ok (inner, after ++ t) := by
  obtain ⟨b, rfl⟩ := eq_of_enclosed h
  have hmore := enclosed_closer h (after ++ t)
  rwa [List.append_assoc]

/-- The bracket that opens the text is the one that closes what it encloses. -/
theorem eq_of_enclosed_opener (h : enclosed (b.opener :: s) = .ok (inner, after)) :
    s = inner ++ b.closer :: after := by
  obtain ⟨b', hs⟩ := eq_of_enclosed h
  obtain ⟨ho, hs⟩ := List.cons.inj hs
  rwa [opener_inj.1 ho]

/-- A bracket around nested text encloses that text. -/
theorem IsNested.enclosed (hs : IsNested s) (hl : b = .angle → lastAfter start s ≠ '-')
    (t : List Char) : enclosed (b.opener :: s ++ b.closer :: t) = .ok (s, t) := by
  have hc : b.closes (lastAfter b.opener s) b.closer = true := by
    rw [closes_eq_true_iff]
    exact ⟨rfl, fun h => lastAfter_opener_ne b (hl h.1) h.2⟩
  have heven := balanceFrom_of_nest b (hs.nest [] b.opener)
  rw [List.cons_append, Bracket.enclosed, ofOpener?_opener]
  exact mapError_eq_ok_iff.2 (readInside_eq_ok hc heven (hs.staysAbove b b.opener) t)

/-- A bracket around balanced text encloses that text. -/
theorem IsBalanced.enclosed (hs : b.IsBalanced s) (hb : b ≠ .angle) (t : List Char) :
    enclosed (b.opener :: s ++ b.closer :: t) = .ok (s, t) := by
  have hc : b.closes (lastAfter b.opener s) b.closer = true :=
    closes_eq_true_iff.2 ⟨rfl, fun h => hb h.1⟩
  have heven : ((0 : Nat) : Int) + b.balanceFrom b.opener s = 0 := by
    rw [balanceFrom_of_ne_angle hb, hs.2]
    omega
  have habove : b.StaysAbove (0 : Nat) b.opener s := by
    intro p hp
    have hle := hs.1 p hp
    rw [balanceFrom_of_ne_angle hb]
    omega
  rw [List.cons_append, Bracket.enclosed, ofOpener?_opener]
  exact mapError_eq_ok_iff.2 (readInside_eq_ok hc heven habove t)

/-- What a bracket other than an angle encloses is balanced. -/
theorem isBalanced_of_enclosed (hb : b ≠ .angle)
    (h : Bracket.enclosed (b.opener :: s) = .ok (inner, after)) : b.IsBalanced inner := by
  rw [Bracket.enclosed, ofOpener?_opener] at h
  have hread := readInside_isReadInside b 0 b.opener s
  rw [mapError_eq_ok_iff.1 h] at hread
  cases hread with
  | closed cut closes even above =>
    constructor
    · intro p hp
      have hge := above p hp
      rw [balanceFrom_of_ne_angle hb] at hge
      omega
    · rw [balanceFrom_of_ne_angle hb] at even
      omega

/-- Nested text has its brackets of each kind balanced, angles apart. -/
theorem IsNested.isBalanced (hs : IsNested s) (hb : b ≠ .angle) : b.IsBalanced s :=
  isBalanced_of_enclosed hb (hs.enclosed (fun h => absurd h hb) [])

end Enclosed

/-- What stands before text that passes changes nothing of what it has outside its brackets. -/
theorem Passes.outsideFrom {p : Char → Bool} {s : List Char} (h : Passes p s) (prev : Char) :
    ∀ place ∈ outsideFrom [] prev s, p place.2.1 = true := by
  intro place hp
  obtain hp | ⟨-, hp⟩ := h.nested.mem_outside hp
  · exact h.outside place hp
  · exact h.outside (start, place.2) hp

end Bracket

namespace TopLevel

open ApiSurface.Bracket

section Hyphen

variable {depth : Nat} {prev prev' : Char}

/-- With no bracket open there is nothing to close: whether an arrow ends here does not matter. -/
theorem step_zero (prev c : Char) : step 0 prev c = if (ofOpener? c).isSome then 1 else 0 := by
  simp [step]

/-- Of the character before, a step knows only whether it could begin an arrow. -/
theorem step_of_ne_hyphen (h : prev ≠ '-') (h' : prev' ≠ '-') (c : Char) :
    step depth prev c = step depth prev' c := by
  simp only [step, h, h', and_false]

theorem headerStep_of_ne_hyphen (h : prev ≠ '-') (h' : prev' ≠ '-') (c : Char) :
    headerStep depth prev c = headerStep depth prev' c := by
  rw [headerStep, headerStep, step_of_ne_hyphen h h']

end Hyphen

/-- A scan for a separator: it goes past every other character and past all that stands in brackets, and
outside brackets it does not know what stood before. -/
structure IsScan {β : Type} (sep : Char) (scan : Nat → Char → List Char → List Char × β) : Prop where
  past {depth : Nat} {prev c : Char} (rest : List Char) (h : ¬(depth = 0 ∧ c = sep)) :
    scan depth prev (c :: rest) = (scan (step depth prev c) c rest).map (c :: ·) id
  restart (prev : Char) (s : List Char) : scan 0 prev s = scan 0 start s

theorem isScan_piecesFrom (sep : Char) : IsScan sep (piecesFrom sep) where
  past rest h := by
    rw [piecesFrom]
    exact if_neg h
  restart prev s := by
    cases s with
    | nil => rfl
    | cons c s => rw [piecesFrom, piecesFrom, step_zero, step_zero]

theorem isScan_splitOnceFrom (sep : Char) : IsScan sep (splitOnceFrom sep) where
  past rest h := by rw [splitOnceFrom, if_neg h]
  restart prev s := by
    cases s with
    | nil => rfl
    | cons c s => rw [splitOnceFrom, splitOnceFrom, step_zero, step_zero]

section Scan

variable {β : Type} {sep : Char} {scan : Nat → Char → List Char → List Char × β}

/-- A scan goes past nested text in which no separator stands outside brackets. -/
theorem IsScan.of_nest (hscan : IsScan sep scan) {opened opened' : List Bracket} {prev : Char}
    {s : List Char} (h : nest opened prev s = some opened')
    (hs : ∀ place ∈ outsideFrom opened prev s, place.2.1 ≠ sep) (t : List Char) :
    scan opened.length prev (s ++ t) =
      (scan opened'.length (lastAfter prev s) t).map (s ++ ·) id := by
  induction s generalizing opened prev with
  | nil =>
    obtain rfl := Option.some.inj h
    rfl
  | cons c s ih =>
    obtain ⟨middle, hm, hn⟩ := Option.bind_eq_some_iff.1 h
    simp only [outsideFrom, hm, Option.elim_some, List.forall_mem_append] at hs
    have hc : ¬(opened.length = 0 ∧ c = sep) := by
      intro hstop
      rw [if_pos (List.length_eq_zero_iff.1 hstop.1)] at hs
      exact hs.1 _ List.mem_cons_self hstop.2
    rw [List.cons_append, hscan.past _ hc, step_of_nestStep hm, ih hn hs.2]
    rfl

theorem IsScan.append (hscan : IsScan sep scan) {s : List Char} (h : Passes (· != sep) s)
    (prev : Char) (t : List Char) :
    scan 0 prev (s ++ t) = (scan 0 start t).map (s ++ ·) id := by
  rw [← hscan.restart (lastAfter prev s)]
  exact hscan.of_nest (h.nested.nest [] prev)
    (fun place hp => by simpa using h.outsideFrom prev place hp) t

end Scan

section Walk

variable {opened opened' : List Bracket} {prev : Char} {s : List Char}

/-- A header counts no braces. That does no harm as long as the outermost bracket is never a brace:
then the depth is zero only outside all brackets. -/
theorem eq_nil_of_countP_eq_zero (hb : opened.getLast? ≠ some .curly)
    (h : opened.countP (· ≠ .curly) = 0) : opened = [] := by
  by_contra hne
  have hl := List.getLast?_eq_getLast_of_ne_nil hne
  have hc := (List.countP_eq_zero.1 h) _ (List.getLast_mem hne)
  exact hb (by simpa [hl] using hc)

theorem getLast?_of_nestStep {c : Char} (h : nestStep opened prev c = some opened')
    (hb : opened.getLast? ≠ some .curly) (hc : opened = [] → c ≠ '\x7b') :
    opened'.getLast? ≠ some .curly := by
  obtain ⟨b, rfl, rfl⟩ | ⟨b, hcl, rfl⟩ | ⟨rfl, ho, hn⟩ := nestStep_cases h
  · cases opened with
    | nil =>
      rw [List.getLast?_singleton]
      intro he
      rw [Option.some.inj he] at hc
      exact hc rfl rfl
    | cons b' opened => rwa [List.getLast?_cons_cons]
  · cases opened' with
    | nil => simp
    | cons b' opened' => rwa [List.getLast?_cons_cons] at hb
  · exact hb

theorem headerFrom_of_nest (h : nest opened prev s = some opened')
    (hb : opened.getLast? ≠ some .curly) (t : List Char)
    (hs : ∀ place ∈ outsideFrom opened prev s,
      endsHeader place.1 place.2.1 (place.2.2 ++ t) = false) :
    headerFrom (opened.countP (· ≠ .curly)) prev (s ++ t) =
      (headerFrom (opened'.countP (· ≠ .curly)) (lastAfter prev s) t).map (s ++ ·) id := by
  induction s generalizing opened prev with
  | nil =>
    obtain rfl := Option.some.inj h
    rfl
  | cons c s ih =>
    obtain ⟨middle, hm, hn⟩ := Option.bind_eq_some_iff.1 h
    simp only [outsideFrom, hm, Option.elim_some, List.forall_mem_append] at hs
    have hplace (ho : opened = []) : endsHeader prev c (s ++ t) = false := by
      rw [if_pos ho] at hs
      exact hs.1 _ List.mem_cons_self
    have hc : ¬(opened.countP (· ≠ .curly) = 0 ∧ endsHeader prev c (s ++ t) = true) := by
      intro hend
      rw [hplace (eq_nil_of_countP_eq_zero hb hend.1)] at hend
      exact Bool.false_ne_true hend.2
    have hbrace (ho : opened = []) : c ≠ '\x7b' := by
      intro hc
      have := hplace ho
      simp [endsHeader, hc] at this
    rw [List.cons_append, headerFrom, if_neg hc, headerStep_of_nestStep hm,
      ih hn (getLast?_of_nestStep hm hb hbrace) hs.2]
    rfl

/-- A search for a keyword goes on past nested text in which the keyword begins no word. -/
theorem splitKeywordFrom_of_nest {kw : List Char} (h : nest opened prev s = some opened')
    (t : List Char)
    (hs : ∀ place ∈ outsideFrom opened prev s, isWordChar place.1 = false →
      spacedKeyword? kw (place.2.1 :: (place.2.2 ++ t)) = none) :
    splitKeywordFrom kw opened.length prev (s ++ t) =
      (splitKeywordFrom kw opened'.length (lastAfter prev s) t).map (Prod.map (s ++ ·) id) := by
  induction s generalizing opened prev with
  | nil =>
    obtain rfl := Option.some.inj h
    rw [List.nil_append, lastAfter]
    cases splitKeywordFrom kw opened.length prev t <;> rfl
  | cons c s ih =>
    obtain ⟨middle, hm, hn⟩ := Option.bind_eq_some_iff.1 h
    simp only [outsideFrom, hm, Option.elim_some, List.forall_mem_append] at hs
    have hnone : (if opened.length = 0 ∧ isWordChar prev = false then
        spacedKeyword? kw (c :: (s ++ t)) else none) = none := by
      split
      · rename_i hout
        have hplace := hs.1
        rw [if_pos (List.length_eq_zero_iff.1 hout.1)] at hplace
        exact hplace _ List.mem_cons_self hout.2
      · rfl
    rw [List.cons_append, splitKeywordFrom, hnone, step_of_nestStep hm, ih hn hs.2, Option.map_map]
    rfl

end Walk

section Pieces

variable {sep prev : Char} {s : List Char} {ps : List (List Char)}

theorem splitOnce_append (h : Passes (· != sep) s) (t : List Char) :
    splitOnce sep (s ++ t) = (splitOnce sep t).map (s ++ ·) id :=
  (isScan_splitOnceFrom sep).append h start t

/-- The separator itself, outside all brackets. -/
theorem splitOnce_sep (t : List Char) : splitOnce sep (sep :: t) = ([], some t) := by
  simp [splitOnce, splitOnceFrom]

theorem splitOnce_of_passes (h : Passes (· != sep) s) : splitOnce sep s = (s, none) := by
  have hs := splitOnce_append h []
  rw [List.append_nil] at hs
  rw [hs]
  simp [splitOnce, splitOnceFrom]

/-- A text is cut at the first separator that stands outside all brackets. -/
theorem splitOnce_append_sep (h : Passes (· != sep) s) (t : List Char) :
    splitOnce sep (s ++ sep :: t) = (s, some t) := by
  rw [splitOnce_append h, splitOnce_sep]
  simp

theorem pieces_append (h : Passes (· != sep) s) (t : List Char) :
    pieces sep (s ++ t) =
      (s ++ (piecesFrom sep 0 start t).1) :: (piecesFrom sep 0 start t).2 := by
  rw [pieces, (isScan_piecesFrom sep).append h]
  rfl

theorem pieces_intercalate (h : ∀ p ∈ s :: ps, Passes (· != ',') p) :
    pieces ',' (", ".toList.intercalate (s :: ps)) = s :: ps.map (' ' :: ·) := by
  induction ps generalizing s with
  | nil =>
    have := pieces_append (h s List.mem_cons_self) []
    rw [List.append_nil] at this
    rw [List.intercalate_singleton, this]
    simp [piecesFrom]
  | cons s' ps ih =>
    have hmore := ih fun p hp => h p (List.mem_cons_of_mem _ hp)
    rw [List.intercalate_cons_cons, List.append_assoc, pieces_append (h s List.mem_cons_self)]
    generalize ", ".toList.intercalate (s' :: ps) = more at hmore ⊢
    have hstep : step 0 start ',' = 0 ∧ step 0 ',' ' ' = 0 := by decide
    have hrest := (isScan_piecesFrom ',').restart ' ' more
    obtain ⟨hpiece, hpieces⟩ := List.cons.inj hmore
    simp [piecesFrom, hstep, hrest, hpiece, hpieces]

/-- Pieces joined by a comma and a space are told apart again. -/
theorem split_intercalate (h : ∀ p ∈ ps, Passes (· != ',') p) (ht : ∀ p ∈ ps, IsTight p) :
    split ',' (", ".toList.intercalate ps) = ps := by
  cases ps with
  | nil => rfl
  | cons s ps =>
    have htrim : (s :: ps.map (' ' :: ·)).map trim = s :: ps := by
      rw [List.map_cons, List.map_map, (ht s List.mem_cons_self).trim]
      congr 1
      refine (List.map_congr_left fun p hp => ?_).trans (List.map_id ps)
      rw [Function.comp, trim_cons_blank (by decide),
        (ht p (List.mem_cons_of_mem _ hp)).trim, id]
    rw [split, pieces_intercalate h]
    rw [htrim, List.filter_eq_self]
    intro p hp
    simpa using (ht p hp).ne_nil

/-- A comma after the only piece adds no piece. -/
theorem split_concat (h : Passes (· != ',') s) (ht : IsTight s) : split ',' (s ++ [',']) = [s] := by
  have hp : pieces ',' (s ++ [',']) = [s, []] := by
    rw [pieces_append h]
    simp [piecesFrom]
  have hs : s.isEmpty = false := by simpa using ht.ne_nil
  rw [split, hp, List.map_cons, ht.trim]
  simp [hs, trim, trimStart, trimEnd, dropEndWhile]

end Pieces

end TopLevel

end ApiSurface
