import ApiSurface.Proofs.LineEndings.Text
import ApiSurface.Reader
import ApiSurface.Bracket.TopLevel
import Mathlib.Data.List.Forall2

namespace ApiSurface

open Text TopLevel

/-- The two answers fail alike, or succeed alike. -/
inductive Alike {ε ε' α α' : Type} (E : ε → ε' → Prop) (R : α → α' → Prop) :
    Except ε α → Except ε' α' → Prop
  | ok {a : α} {a' : α'} (h : R a a') : Alike E R (.ok a) (.ok a')
  | error {e : ε} {e' : ε'} (h : E e e') : Alike E R (.error e) (.error e')

namespace Alike

variable {ε ε' α α' β β' : Type} {E : ε → ε' → Prop} {R : α → α' → Prop} {S : β → β' → Prop}
variable {x : Except ε α} {x' : Except ε' α'}

theorem mono (h : Alike E R x x') {R' : α → α' → Prop} (hr : ∀ a a', R a a' → R' a a') :
    Alike E R' x x' := by
  cases h with
  | ok h => exact ok (hr _ _ h)
  | error h => exact error h

theorem map (h : Alike E R x x') {f : α → β} {f' : α' → β'}
    (hf : ∀ a a', R a a' → S (f a) (f' a')) : Alike E S (x.map f) (x'.map f') := by
  cases h with
  | ok h => exact ok (hf _ _ h)
  | error h => exact error h

theorem mapError (h : Alike E R x x') {ζ ζ' : Type} {F : ζ → ζ' → Prop} {f : ε → ζ} {f' : ε' → ζ'}
    (hf : ∀ e e', E e e' → F (f e) (f' e')) : Alike F R (x.mapError f) (x'.mapError f') := by
  cases h with
  | ok h => exact ok h
  | error h => exact error (hf _ _ h)

theorem bind (h : Alike E R x x') {f : α → Except ε β} {f' : α' → Except ε' β'}
    (hf : ∀ a a', R a a' → Alike E S (f a) (f' a')) : Alike E S (x >>= f) (x' >>= f') := by
  cases h with
  | ok h => exact hf _ _ h
  | error h => exact error h

section Pair

variable {γ γ' ζ ζ' : Type} {T : ζ → ζ' → Prop} {Q : γ → γ' → Prop}
variable {y : Except ε (α × γ)} {y' : Except ε' (α' × γ')}

/-- What is done with a value and a rest, each alike for itself. -/
theorem bind_pair (h : Alike E (fun p p' => R p.1 p'.1 ∧ Q p.2 p'.2) y y')
    {f : α × γ → Except ε ζ} {f' : α' × γ' → Except ε' ζ'}
    (hf : ∀ a a' c c', R a a' → Q c c' → Alike E T (f (a, c)) (f' (a', c'))) :
    Alike E T (y >>= f) (y' >>= f') :=
  h.bind fun _ _ hp => hf _ _ _ _ hp.1 hp.2

theorem map_pair (h : Alike E (fun p p' => R p.1 p'.1 ∧ Q p.2 p'.2) y y') {f : α × γ → ζ}
    {f' : α' × γ' → ζ'} (hf : ∀ a a' c c', R a a' → Q c c' → T (f (a, c)) (f' (a', c'))) :
    Alike E T (y.map f) (y'.map f') :=
  h.map fun _ _ hp => hf _ _ _ _ hp.1 hp.2

end Pair

theorem mapM {as : List α} {as' : List α'} (h : List.Forall₂ R as as') {f : α → Except ε β}
    {f' : α' → Except ε' β'} (hf : ∀ a a', R a a' → Alike E S (f a) (f' a')) :
    Alike E (List.Forall₂ S) (as.mapM f) (as'.mapM f') := by
  induction h with
  | nil => exact ok .nil
  | cons ha _ ih =>
    rw [List.mapM_cons, List.mapM_cons]
    exact (hf _ _ ha).bind fun b b' hb => ih.bind fun bs bs' hbs => ok (.cons hb hbs)

end Alike

/-- The fault a text has with the other line endings: what it quotes of the text has them too. -/
structure Fault.SameLines (e e' : Fault) : Prop where
  kind : e'.kindName = e.kindName
  message : e'.message = crlfString e.message

/-- Answers to two texts that differ in their line endings only. -/
abbrev Agree {α α' : Type} (R : α → α' → Prop) : Except Fault α → Except Fault α' → Prop :=
  Alike Fault.SameLines R

/-- On texts of at most `n` characters the two readers find values alike, and leave rests alike. -/
def Reader.Agree {α α' : Type} (n : Nat) (R : α → α' → Prop) (read : Reader α) (read' : Reader α') :
    Prop :=
  ∀ s s', SameLines n s s' →
    ApiSurface.Agree (fun p p' => R p.1 p'.1 ∧ SameLines n p.2 p'.2) (read s) (read' s')

namespace Fault.SameLines

theorem excerpt_eq {n : Nat} {s s' : List Char} (h : Text.SameLines n s s') :
    excerpt s' = excerpt s ∧ '\n' ∉ (excerpt s).toList := by
  obtain ⟨hline, hu⟩ := h.firstLine_eq
  unfold excerpt
  simp only [hline, String.toList_ofList]
  refine ⟨trivial, ?_⟩
  split
  · intro hm
    rcases List.mem_append.1 hm with hm | hm
    · exact (hu _ (List.mem_of_mem_take hm)).1 rfl
    · exact absurd hm (by decide)
  · exact fun hm => (hu _ hm).1 rfl

section Worded

variable {problem problem' : String} (h : problem' = crlfString problem)
include h

/-- A fault whose message is its problem behind some words. -/
theorem worded (build : String → Fault) (words : String) (hwords : '\n' ∉ words.toList)
    (hkind : (build problem').kindName = (build problem).kindName)
    (hmessage : ∀ p, (build p).message = words ++ p) : (build problem).SameLines (build problem') := by
  refine ⟨hkind, ?_⟩
  rw [hmessage, hmessage, h, crlfString_append, crlfString_eq_self hwords]

theorem malformedSignature :
    (Fault.malformedSignature problem).SameLines (.malformedSignature problem') :=
  worded h .malformedSignature "malformed signature: " (by decide) rfl fun _ => rfl

theorem malformedParameters :
    (Fault.malformedParameters problem).SameLines (.malformedParameters problem') :=
  worded h .malformedParameters "malformed argument list: " (by decide) rfl fun _ => rfl

end Worded

theorem noIdentifier {n : Nat} {s s' : List Char} (h : Text.SameLines n s s') :
    (Fault.noIdentifier s).SameLines (.noIdentifier s') := by
  obtain ⟨hs, hn⟩ := excerpt_eq h
  refine ⟨rfl, ?_⟩
  change "invalid identifier at '" ++ excerpt s' ++ "'" =
    crlfString ("invalid identifier at '" ++ excerpt s ++ "'")
  simp (disch := decide) only [hs, crlfString_append, crlfString_eq_self hn, crlfString_eq_self]

theorem unmatchedBracket (b : Bracket) (depth : Nat) :
    (Fault.unmatchedBracket b.opener depth).SameLines (.unmatchedBracket b.opener depth) := by
  have hdigits : '\n' ∉ depth.repr.toList := by
    intro hm
    have := Nat.isDigit_of_mem_toDigits (by decide) (by decide) (String.toList_ofList ▸ hm)
    exact absurd this (by decide)
  have hopener : '\n' ∉ (String.singleton b.opener).toList := by cases b <;> decide
  refine ⟨rfl, ?_⟩
  change "unmatched '" ++ String.singleton b.opener ++ "': input ended at depth " ++ depth.repr =
    crlfString
      ("unmatched '" ++ String.singleton b.opener ++ "': input ended at depth " ++ depth.repr)
  simp (disch := decide) only [crlfString_append, crlfString_eq_self hdigits,
    crlfString_eq_self hopener, crlfString_eq_self]

end Fault.SameLines

section Brackets

variable {n : Nat} {s s' : List Char} {b : Bracket} {depth : Nat} {prev : Char}

open ApiSurface.Bracket

theorem Bracket.readInside_of_plain {c : Char} (ho : c ≠ b.opener) (hc : c ≠ b.closer)
    (rest : List Char) : b.readInside depth prev (c :: rest) =
      (b.readInside depth c rest).map (Prod.map (c :: ·) id) := by
  have hn : b.closes prev c = false := by simp [closes, hc]
  rw [readInside, if_neg ho, if_neg (by simp [hn])]

/-- Both texts are cut at the same closer. -/
theorem Text.SameLines.readInside (h : SameLines n s s') (depth : Nat) (prev : Char) :
    Alike Eq (fun p p' => SameLines n p.1 p'.1 ∧ SameLines n p.2 p'.2)
      (b.readInside depth prev s) (b.readInside depth prev s') := by
  induction h generalizing depth prev with
  | nil => exact .error rfl
  | @char n c s s' hn hr more ih =>
    have step (depth : Nat) : Alike Eq
        (fun p p' => SameLines (n + 1) p.1 p'.1 ∧ SameLines (n + 1) p.2 p'.2)
        ((b.readInside depth c s).map (Prod.map (c :: ·) id))
        ((b.readInside depth c s').map (Prod.map (c :: ·) id)) :=
      (ih depth c).map fun _ _ hp => ⟨.char hn hr hp.1, hp.2.mono (Nat.le_succ n)⟩
    simp only [Bracket.readInside]
    split
    · exact step _
    split
    · split
      · exact .ok ⟨.nil, more.mono (Nat.le_succ n)⟩
      · exact step _
    · exact step _
  | @feed n s s' more ih =>
    have hfeed : '\n' ≠ b.opener ∧ '\n' ≠ b.closer := by cases b <;> decide
    have hret : '\r' ≠ b.opener ∧ '\r' ≠ b.closer := by cases b <;> decide
    rw [readInside_of_plain hfeed.1 hfeed.2, readInside_of_plain hret.1 hret.2,
      readInside_of_plain hfeed.1 hfeed.2]
    have hs := ih depth '\n'
    generalize b.readInside depth '\n' s = x, b.readInside depth '\n' s' = x' at hs ⊢
    cases hs with
    | ok hp => exact .ok ⟨.feed hp.1, hp.2.mono (Nat.le_succ n)⟩
    | error he => exact .error he

/-- What a bracket in front encloses, and what stands behind it. -/
theorem Text.SameLines.enclosed (h : SameLines n s s') (b : Bracket) :
    Agree (fun p p' => SameLines n p.1 p'.1 ∧ SameLines n p.2 p'.2)
      (enclosed (b.opener :: s)) (enclosed (b.opener :: s')) := by
  simp only [Bracket.enclosed, ofOpener?_opener]
  refine (h.readInside 0 b.opener).mapError ?_
  rintro depth _ rfl
  exact .unmatchedBracket b _

end Brackets

section TopLevel

variable {n : Nat} {s s' : List Char} {depth : Nat} {prev : Char}

theorem optionRel_mono {α β : Type} {R R' : α → β → Prop} (hr : ∀ a b, R a b → R' a b)
    {x : Option α} {y : Option β} (h : Option.Rel R x y) : Option.Rel R' x y := by
  cases h with
  | none => exact .none
  | some h => exact .some (hr _ _ h)

theorem optionRel_map {α β γ δ : Type} {R : α → β → Prop} {S : γ → δ → Prop} {f : α → γ} {g : β → δ}
    (hf : ∀ a b, R a b → S (f a) (g b)) {x : Option α} {y : Option β} (h : Option.Rel R x y) :
    Option.Rel S (x.map f) (y.map g) := by
  cases h with
  | none => exact .none
  | some h => exact .some (hf _ _ h)

theorem step_feed (depth : Nat) (prev : Char) : Bracket.step depth prev '\n' = depth := rfl

theorem step_ret (depth : Nat) (prev : Char) : Bracket.step depth prev '\r' = depth := rfl

theorem Text.SameLines.piecesFrom (h : SameLines n s s') {sep : Char} (hf : sep ≠ '\n')
    (hr : sep ≠ '\r') (depth : Nat) (prev : Char) :
    SameLines n (piecesFrom sep depth prev s).1 (piecesFrom sep depth prev s').1 ∧
      List.Forall₂ (SameLines n) (piecesFrom sep depth prev s).2
        (piecesFrom sep depth prev s').2 := by
  induction h generalizing depth prev with
  | nil => exact ⟨.nil, .nil⟩
  | @char n c s s' hn hr more ih =>
    obtain ⟨hp, hm⟩ := ih (Bracket.step depth prev c) c
    have hm := hm.imp fun _ _ h => h.mono (Nat.le_succ n)
    simp only [TopLevel.piecesFrom]
    split
    · exact ⟨.nil, .cons (hp.mono (Nat.le_succ n)) hm⟩
    · exact ⟨.char hn hr hp, hm⟩
  | @feed n s s' more ih =>
    obtain ⟨hp, hm⟩ := ih depth '\n'
    have hm := hm.imp fun _ _ h => h.mono (Nat.le_succ n)
    simp only [TopLevel.piecesFrom, step_feed, step_ret, hf.symm, hr.symm, and_false, if_false]
    exact ⟨.feed hp, hm⟩

theorem Text.SameLines.split (h : SameLines n s s') (sep : Char) (hf : sep ≠ '\n')
    (hr : sep ≠ '\r') : List.Forall₂ (SameLines n) (split sep s) (split sep s') := by
  obtain ⟨hp, hm⟩ := h.piecesFrom hf hr 0 start
  have htrim : List.Forall₂ (SameLines n) ((pieces sep s).map Text.trim)
      ((pieces sep s').map Text.trim) := by
    rw [List.forall₂_map_left_iff, List.forall₂_map_right_iff]
    exact (List.Forall₂.cons hp hm).imp fun _ _ h => h.trim
  refine List.rel_filter ?_ htrim
  intro a a' ha
  simp only [ha.isEmpty_eq]

/-- The pieces between separators are read alike, one after another. -/
theorem Text.SameLines.mapM_split (h : SameLines n s s') {α α' : Type} {R : α → α' → Prop}
    {f : List Char → Except Fault α} {f' : List Char → Except Fault α'}
    (hf : ∀ t t', SameLines n t t' → Agree R (f t) (f' t')) :
    Agree (List.Forall₂ R) ((TopLevel.split ',' s).mapM f) ((TopLevel.split ',' s').mapM f') :=
  Alike.mapM (h.split ',' (by decide) (by decide)) hf

theorem Text.SameLines.splitOnceFrom (h : SameLines n s s') {sep : Char} (hf : sep ≠ '\n')
    (hr : sep ≠ '\r') (depth : Nat) (prev : Char) :
    SameLines n (splitOnceFrom sep depth prev s).1 (splitOnceFrom sep depth prev s').1 ∧
      Option.Rel (SameLines n) (splitOnceFrom sep depth prev s).2
        (splitOnceFrom sep depth prev s').2 := by
  induction h generalizing depth prev with
  | nil => exact ⟨.nil, .none⟩
  | @char n c s s' hn hr more ih =>
    obtain ⟨hp, hm⟩ := ih (Bracket.step depth prev c) c
    simp only [TopLevel.splitOnceFrom]
    split
    · exact ⟨.nil, .some (more.mono (Nat.le_succ n))⟩
    · exact ⟨.char hn hr hp, optionRel_mono (fun _ _ h => h.mono (Nat.le_succ n)) hm⟩
  | @feed n s s' more ih =>
    obtain ⟨hp, hm⟩ := ih depth '\n'
    simp only [TopLevel.splitOnceFrom, step_feed, step_ret, hf.symm, hr.symm, and_false, if_false]
    exact ⟨.feed hp, optionRel_mono (fun _ _ h => h.mono (Nat.le_succ n)) hm⟩

theorem Text.SameLines.splitOnce (h : SameLines n s s') (sep : Char) (hf : sep ≠ '\n')
    (hr : sep ≠ '\r') : SameLines n (splitOnce sep s).1 (splitOnce sep s').1 ∧
      Option.Rel (SameLines n) (splitOnce sep s).2 (splitOnce sep s').2 :=
  h.splitOnceFrom hf hr 0 start

theorem Text.SameLines.spacedKeyword? (h : SameLines n s s') (kw : List Char) (hk : IsUnbroken kw) :
    Option.Rel (SameLines (n - kw.length)) (spacedKeyword? kw s) (spacedKeyword? kw s') := by
  have hs := h.keyword? kw hk
  unfold TopLevel.spacedKeyword?
  generalize Text.keyword? kw s = found, Text.keyword? kw s' = found' at hs ⊢
  cases hs with
  | none => exact .none
  | some hs =>
    simp only [Option.filter, hs.any_head? (p := isBlank) rfl]
    split
    · exact .some hs
    · exact .none

theorem spacedKeyword?_feed {kw : List Char} (hk : IsUnbroken kw) (hne : kw ≠ []) (s : List Char) :
    spacedKeyword? kw ('\n' :: s) = none ∧ spacedKeyword? kw ('\r' :: s) = none := by
  obtain ⟨k, kw, rfl⟩ := List.exists_cons_of_ne_nil hne
  have h := hk k List.mem_cons_self
  simp [spacedKeyword?, keyword?_eq_none_of_head h.1, keyword?_eq_none_of_head h.2]

theorem Text.SameLines.splitKeywordFrom (h : SameLines n s s') (kw : List Char) (hk : IsUnbroken kw)
    (hne : kw ≠ []) (depth : Nat) (prev : Char) :
    Option.Rel (fun p p' => SameLines n p.1 p'.1 ∧ SameLines n p.2 p'.2)
      (splitKeywordFrom kw depth prev s) (splitKeywordFrom kw depth prev s') := by
  induction h generalizing depth prev with
  | nil => exact .none
  | @char n c s s' hn hr more ih =>
    have hs := (SameLines.char hn hr more).spacedKeyword? kw hk
    have hrest : Option.Rel (fun p p' => SameLines (n + 1) p.1 p'.1 ∧ SameLines (n + 1) p.2 p'.2)
        ((TopLevel.splitKeywordFrom kw (Bracket.step depth prev c) c s).map (Prod.map (c :: ·) id))
        ((TopLevel.splitKeywordFrom kw (Bracket.step depth prev c) c s').map (Prod.map (c :: ·) id)) :=
      optionRel_map (fun _ _ hp => ⟨.char hn hr hp.1, hp.2.mono (Nat.le_succ n)⟩) (ih _ c)
    simp only [TopLevel.splitKeywordFrom]
    by_cases hplace : depth = 0 ∧ isWordChar prev = false
    · simp only [if_pos hplace]
      generalize TopLevel.spacedKeyword? kw (c :: s) = found,
        TopLevel.spacedKeyword? kw (c :: s') = found' at hs ⊢
      cases hs with
      | none => exact hrest
      | some hs => exact .some ⟨.nil, hs.mono (Nat.sub_le _ _)⟩
    · simp only [if_neg hplace]
      exact hrest
  | @feed n s s' more ih =>
    have hs := ih depth '\n'
    have hfeed (t : List Char) := (spacedKeyword?_feed hk hne t).1
    have hret (t : List Char) := (spacedKeyword?_feed hk hne t).2
    simp only [TopLevel.splitKeywordFrom, hfeed, hret, ite_self, step_feed, step_ret,
      Option.map_map]
    exact optionRel_map (fun _ _ hp => ⟨.feed hp.1, hp.2.mono (Nat.le_succ n)⟩) hs

theorem endsHeader_feed (prev : Char) (rest : List Char) :
    endsHeader prev '\n' rest = false ∧ endsHeader prev '\r' rest = false := by
  have hn : keyword? whereWord ('\n' :: rest) = none := keyword?_eq_none_of_head (by decide)
  have hr : keyword? whereWord ('\r' :: rest) = none := keyword?_eq_none_of_head (by decide)
  simp [endsHeader, hn, hr]

theorem Text.SameLines.headerFrom (h : SameLines n s s') (depth : Nat) (prev : Char) :
    SameLines n (headerFrom depth prev s).1 (headerFrom depth prev s').1 ∧
      SameLines n (headerFrom depth prev s).2 (headerFrom depth prev s').2 := by
  induction h generalizing depth prev with
  | nil => exact ⟨.nil, .nil⟩
  | @char n c s s' hn hr more ih =>
    have hends : endsHeader prev c s' = endsHeader prev c s := by
      rw [endsHeader, endsHeader,
        (SameLines.char hn hr more).isSome_keyword? whereWord (by decide)]
    obtain ⟨hp, hm⟩ := ih (headerStep depth prev c) c
    simp only [TopLevel.headerFrom, hends]
    split
    · exact ⟨.nil, .char hn hr more⟩
    · exact ⟨.char hn hr hp, hm.mono (Nat.le_succ n)⟩
  | @feed n s s' more ih =>
    obtain ⟨hp, hm⟩ := ih depth '\n'
    have hfeed (prev : Char) (t : List Char) := (endsHeader_feed prev t).1
    have hret (prev : Char) (t : List Char) := (endsHeader_feed prev t).2
    simp only [TopLevel.headerFrom, hfeed, hret, Bool.false_eq_true, and_false, if_false]
    exact ⟨.feed hp, hm.mono (Nat.le_succ n)⟩

theorem Text.SameLines.header (h : SameLines n s s') :
    SameLines n (header s).1 (header s').1 ∧ SameLines n (header s).2 (header s').2 :=
  h.headerFrom 0 start

end TopLevel

end ApiSurface
