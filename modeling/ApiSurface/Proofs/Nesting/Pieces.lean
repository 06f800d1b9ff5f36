import ApiSurface.Proofs.Nesting.Group

namespace ApiSurface

open Text
open ApiSurface.Bracket

namespace TopLevel

/-- How many brackets are open behind a text, `depth` of them in front of it. -/
def depthFrom : (depth : Nat) → (prev : Char) → List Char → Nat
  | depth, _, [] => depth
  | depth, prev, c :: rest => depthFrom (step depth prev c) c rest

def depthAfter (s : List Char) : Nat := depthFrom 0 start s

/-- No separator of `s` stands outside brackets, where `depth` of them are open in front of `s`. -/
def IsWholeFrom (sep : Char) (depth : Nat) (prev : Char) (s : List Char) : Prop :=
  ∀ p, p ++ [sep] <+: s → depthFrom depth prev p ≠ 0

def IsWhole (sep : Char) (s : List Char) : Prop := IsWholeFrom sep 0 start s

/-- What one cut gives: the text in front of the first separator outside brackets and the text behind
it, or all of the text where there is none. -/
inductive IsCut (sep : Char) (depth : Nat) (prev : Char) (s : List Char) :
    List Char × Option (List Char) → Prop
  | whole (whole : IsWholeFrom sep depth prev s) : IsCut sep depth prev s (s, none)
  | cut {piece rest : List Char} (eq : s = piece ++ sep :: rest)
      (whole : IsWholeFrom sep depth prev piece) (closed : depthFrom depth prev piece = 0) :
      IsCut sep depth prev s (piece, some rest)

section Cut

variable {sep prev c : Char} {depth : Nat} {s p q : List Char}

theorem IsWholeFrom.nil : IsWholeFrom sep depth prev [] := by
  intro p hp
  exact absurd (List.prefix_nil.1 hp) (List.concat_ne_nil sep p)

theorem IsWholeFrom.cons (hc : ¬(depth = 0 ∧ c = sep))
    (h : IsWholeFrom sep (step depth prev c) c s) : IsWholeFrom sep depth prev (c :: s) := by
  intro p hp
  cases p with
  | nil =>
    obtain ⟨hsep, -⟩ := List.cons_prefix_cons.1 hp
    exact fun hd => hc ⟨hd, hsep.symm⟩
  | cons c' p =>
    obtain ⟨rfl, hrest⟩ := List.cons_prefix_cons.1 hp
    exact h p hrest

/-- The first separator outside brackets stands behind a piece that has none, not inside it. -/
theorem IsWholeFrom.eq_of_concat_prefix (hq : IsWholeFrom sep depth prev q)
    (hp : depthFrom depth prev p = 0) (h : p ++ [sep] <+: q ++ [sep]) : p = q := by
  obtain h | h := List.prefix_concat_iff.1 h
  · exact List.append_cancel_right h
  · exact absurd hp (hq p h)

theorem IsCut.cons {x : List Char × Option (List Char)} (hc : ¬(depth = 0 ∧ c = sep))
    (h : IsCut sep (step depth prev c) c s x) :
    IsCut sep depth prev (c :: s) (x.map (c :: ·) id) := by
  cases h with
  | whole whole => exact .whole (whole.cons hc)
  | cut eq whole closed => exact .cut (by rw [eq]; rfl) (whole.cons hc) closed

theorem IsCut.unique {x y : List Char × Option (List Char)} (hx : IsCut sep depth prev s x)
    (hy : IsCut sep depth prev s y) : x = y := by
  have hpart {piece rest : List Char} (eq : s = piece ++ sep :: rest) : piece ++ [sep] <+: s :=
    ⟨rest, by rw [eq, List.append_assoc]; rfl⟩
  cases hx with
  | whole whole =>
    cases hy with
    | whole => rfl
    | cut eq _ closed => exact absurd closed (whole _ (hpart eq))
  | @cut piece rest eq whole closed =>
    cases hy with
    | whole whole' => exact absurd closed (whole' _ (hpart eq))
    | @cut piece' rest' eq' whole' closed' =>
      have hpiece : piece = piece' := by
        obtain h | h := List.prefix_or_prefix_of_prefix (hpart eq) (hpart eq')
        · exact whole'.eq_of_concat_prefix closed h
        · exact (whole.eq_of_concat_prefix closed' h).symm
      rw [hpiece] at eq
      obtain ⟨-, hrest⟩ := List.cons.inj (List.append_cancel_left (eq.symm.trans eq'))
      rw [hpiece, hrest]

theorem splitOnceFrom_isCut (sep : Char) (depth : Nat) (prev : Char) (s : List Char) :
    IsCut sep depth prev s (splitOnceFrom sep depth prev s) := by
  induction s generalizing depth prev with
  | nil => exact .whole .nil
  | cons c s ih =>
    rw [splitOnceFrom]
    split
    · rename_i hc
      rw [hc.2]
      exact .cut rfl .nil hc.1
    · rename_i hc
      exact (ih (step depth prev c) c).cons hc

theorem splitOnce_isCut (sep : Char) (s : List Char) : IsCut sep 0 start s (splitOnce sep s) :=
  splitOnceFrom_isCut sep 0 start s

theorem splitOnce_eq_none_iff : splitOnce sep s = (p, none) ↔ p = s ∧ IsWhole sep s := by
  have hcut := splitOnce_isCut sep s
  constructor
  · intro h
    rw [h] at hcut
    cases hcut with
    | whole whole => exact ⟨rfl, whole⟩
  · rintro ⟨rfl, whole⟩
    exact hcut.unique (.whole whole)

theorem splitOnce_eq_some_iff : splitOnce sep s = (p, some q) ↔
    s = p ++ sep :: q ∧ IsWhole sep p ∧ depthAfter p = 0 := by
  have hcut := splitOnce_isCut sep s
  constructor
  · intro h
    rw [h] at hcut
    cases hcut with
    | cut eq whole closed => exact ⟨eq, whole, closed⟩
  · rintro ⟨eq, whole, closed⟩
    exact hcut.unique (.cut eq whole closed)

theorem length_of_splitOnce (h : splitOnce sep s = (p, some q)) : q.length < s.length := by
  rw [(splitOnce_eq_some_iff.1 h).1, List.length_append, List.length_cons]
  omega

end Cut

/-- The pieces got by cutting a text at its first separator outside brackets, and then again and again
what is behind the cut, as if it stood alone, until there is no such separator. -/
def cutUp (sep : Char) (s : List Char) : List (List Char) :=
  match _h : splitOnce sep s with
  | (piece, none) => [piece]
  | (piece, some rest) => piece :: cutUp sep rest
termination_by s.length
decreasing_by exact length_of_splitOnce _h

/-- A text cut at separators outside brackets, and at all of them. -/
structure IsCutUp (sep : Char) (s : List Char) (ps : List (List Char)) : Prop where
  ne_nil : ps ≠ []
  joined : [sep].intercalate ps = s
  whole : ∀ p ∈ ps, IsWhole sep p
  closed : ∀ p ∈ ps.dropLast, depthAfter p = 0

section CutUp

variable {sep : Char} {s p rest : List Char} {ps : List (List Char)}

theorem IsCutUp.single (h : IsWhole sep s) : IsCutUp sep s [s] where
  ne_nil := List.cons_ne_nil s []
  joined := List.intercalate_singleton
  whole := List.forall_mem_singleton.2 h
  closed := List.forall_mem_nil _

theorem IsCutUp.cons (hp : IsWhole sep p) (hc : depthAfter p = 0) (h : IsCutUp sep s ps) :
    IsCutUp sep (p ++ sep :: s) (p :: ps) where
  ne_nil := List.cons_ne_nil p ps
  joined := by rw [List.intercalate_cons_of_ne_nil h.ne_nil, h.joined, List.append_assoc]; rfl
  whole := List.forall_mem_cons.2 ⟨hp, h.whole⟩
  closed := by
    rw [List.dropLast_cons_of_ne_nil h.ne_nil]
    exact List.forall_mem_cons.2 ⟨hc, h.closed⟩

theorem cutUp_of_none (h : splitOnce sep s = (p, none)) : cutUp sep s = [p] := by
  rw [cutUp]
  split <;> simp_all

theorem cutUp_of_some (h : splitOnce sep s = (p, some rest)) :
    cutUp sep s = p :: cutUp sep rest := by
  rw [cutUp]
  split <;> simp_all

theorem cutUp_isCutUp (sep : Char) (s : List Char) : IsCutUp sep s (cutUp sep s) := by
  fun_induction cutUp sep s with
  | case1 s p h =>
    obtain ⟨rfl, hwhole⟩ := splitOnce_eq_none_iff.1 h
    exact .single hwhole
  | case2 s p rest h ih =>
    obtain ⟨rfl, hwhole, hclosed⟩ := splitOnce_eq_some_iff.1 h
    exact ih.cons hwhole hclosed

/-- There is one way only to cut a text up. -/
theorem IsCutUp.eq_cutUp (h : IsCutUp sep s ps) : ps = cutUp sep s := by
  induction ps generalizing s with
  | nil => exact absurd rfl h.ne_nil
  | cons p ps ih =>
    obtain ⟨hp, hwhole⟩ := List.forall_mem_cons.1 h.whole
    cases ps with
    | nil =>
      have hjoined := h.joined
      rw [List.intercalate_singleton] at hjoined
      rw [hjoined] at hp ⊢
      exact (cutUp_of_none (splitOnce_eq_none_iff.2 ⟨rfl, hp⟩)).symm
    | cons q ps =>
      obtain ⟨hc, hclosed⟩ := List.forall_mem_cons.1 h.closed
      have hrest : IsCutUp sep ([sep].intercalate (q :: ps)) (q :: ps) :=
        ⟨List.cons_ne_nil q ps, rfl, hwhole, hclosed⟩
      have hcut : splitOnce sep s = (p, some ([sep].intercalate (q :: ps))) := by
        refine splitOnce_eq_some_iff.2 ⟨?_, hp, hc⟩
        rw [← h.joined, List.intercalate_cons_cons, List.append_assoc]
        rfl
      rw [cutUp_of_some hcut, ← ih hrest]

end CutUp

section Pieces

variable {sep : Char}

theorem intercalate_piecesFrom (sep : Char) (depth : Nat) (prev : Char) (s : List Char) :
    [sep].intercalate ((piecesFrom sep depth prev s).1 :: (piecesFrom sep depth prev s).2) = s := by
  induction s generalizing depth prev with
  | nil => rfl
  | cons c s ih =>
    have hrest := ih (step depth prev c) c
    rw [piecesFrom]
    generalize piecesFrom sep (step depth prev c) c s = p at hrest ⊢
    obtain ⟨piece, more⟩ := p
    dsimp only at hrest ⊢
    split
    · rename_i hc
      rw [List.intercalate_cons_cons, hrest, hc.2]
      rfl
    · rw [← hrest]
      cases more with
      | nil => rw [List.intercalate_singleton, List.intercalate_singleton]
      | cons q more => rw [List.intercalate_cons_cons, List.intercalate_cons_cons]; rfl

/-- Whatever the separator, the pieces with it between them are the text. -/
theorem intercalate_pieces (sep : Char) (s : List Char) : [sep].intercalate (pieces sep s) = s :=
  intercalate_piecesFrom sep 0 start s

/-- The first piece is what one cut gives, and the others are those of the text behind it: after a
separator that opens no bracket the walk is at depth zero, where it stood in front of it. -/
theorem piecesFrom_eq (hs : ofOpener? sep = none) (depth : Nat) (prev : Char) (s : List Char) :
    piecesFrom sep depth prev s =
      (splitOnceFrom sep depth prev s).map id (·.elim [] (pieces sep)) := by
  induction s generalizing depth prev with
  | nil => rfl
  | cons c s ih =>
    rw [piecesFrom, splitOnceFrom]
    by_cases hc : depth = 0 ∧ c = sep
    · have hstep : step depth prev c = 0 := by rw [hc.1, hc.2, step_zero, hs]; rfl
      rw [hstep, (isScan_piecesFrom sep).restart]
      simp only [if_pos hc]
      rfl
    · rw [ih]
      simp only [if_neg hc]
      rfl

theorem pieces_eq_cutUp (hs : ofOpener? sep = none) (s : List Char) :
    pieces sep s = cutUp sep s := by
  fun_induction cutUp sep s with
  | case1 s p h =>
    rw [pieces, piecesFrom_eq hs, ← splitOnce, h]
    rfl
  | case2 s p rest h ih =>
    rw [pieces, piecesFrom_eq hs, ← splitOnce, h, ← ih]
    rfl

/-- Splitting a text is cutting it again and again, with the pieces trimmed and the empty ones left out.
With the separator between them the pieces are the text, and they are the only ones: none has a separator
outside brackets, and each but the last leaves no bracket open. The separator is no opener, which the one
walk counts as open and a cut leaves behind. -/
theorem split_eq_cutUp (hs : ofOpener? sep = none) (s : List Char) :
    split sep s = ((cutUp sep s).map trim).filter (!·.isEmpty) ∧
      [sep].intercalate (cutUp sep s) = s ∧ ∀ ps, IsCutUp sep s ps ↔ ps = cutUp sep s := by
  refine ⟨?_, (cutUp_isCutUp sep s).joined, fun ps => ⟨IsCutUp.eq_cutUp, ?_⟩⟩
  · rw [split, pieces_eq_cutUp hs]
  · rintro rfl
    exact cutUp_isCutUp sep s

/-- Hyphens that might make an arrow of what follows, behind a closer that closes nothing, in front of
angles with such an arrow in them, and at the end. -/
theorem split_eq_cutUp_hyphen :
    let s := "a)->b-<c-d->e>- ".toList
    ofOpener? '-' = none ∧
      split '-' s = ["a)".toList, ">b".toList, "<c-d->e>".toList] ∧
      cutUp '-' s = ["a)".toList, ">b".toList, "<c-d->e>".toList, " ".toList] ∧
      ['-'].intercalate (cutUp '-' s) = s := by
  intro s
  have hs : ofOpener? '-' = none := by decide
  obtain ⟨hsplit, hjoined, -⟩ := split_eq_cutUp hs s
  have hpieces : cutUp '-' s = ["a)".toList, ">b".toList, "<c-d->e>".toList, " ".toList] :=
    (pieces_eq_cutUp hs s).symm.trans (by decide)
  refine ⟨hs, ?_, hpieces, hjoined⟩
  rw [hsplit, hpieces]
  decide

end Pieces

end TopLevel

end ApiSurface
