import ApiSurface.Proofs.Modifiers
import ApiSurface.Proofs.Nesting.Scanners
import ApiSurface.Proofs.Text.WordBreak
import ApiSurface.Proofs.TypeExpr.Edges
import ApiSurface.TypeExpr.Progress

namespace ApiSurface

open Text TopLevel
open ApiSurface.Bracket (enclosed)

section Cut

variable {α : Type} {s tail : List Char}

/-- Where `read` leaves `tail` at the end of its text, and no word runs on into `tail` from what else it
leaves, `read'` takes the same off the text without `tail`, and no word runs on from that either. -/
def Reader.LocalAt (read read' : Reader α) (s tail : List Char) : Prop :=
  ∀ ⦃rest : List Char⦄ ⦃a : α⦄, IsWordBreak rest tail → read (s ++ tail) = .ok (a, rest ++ tail) →
    read' s = .ok (a, rest) ∧ IsWordBreak s tail

theorem exists_append_of_suffix {rest : List Char} (h : rest ++ tail <:+ s) :
    ∃ t, s = t ++ tail :=
  ((List.suffix_append rest tail).trans h).imp fun _ ht => ht.symm

theorem length_le_of_suffix {t : List Char} (h : t ++ tail <:+ s ++ tail) : t.length ≤ s.length := by
  have hlength := h.length_le
  rw [List.length_append, List.length_append] at hlength
  omega

/-- White space in front changes nothing. -/
theorem Reader.LocalAt.trimStart {read read' : Reader α} (hk : read.Keeps)
    (h : LocalAt read read' (trimStart s) tail) :
    LocalAt (fun x => read (trimStart x)) (fun x => read' (trimStart x)) s tail := by
  intro rest a hb hr
  dsimp only at hr
  rw [trimStart_append_of_suffix ((List.suffix_append rest tail).trans (hk hr))] at hr
  obtain ⟨hread', hbreak⟩ := h hb hr
  exact ⟨hread', hbreak.of_trimStart⟩

end Cut

section Words

variable {s tail : List Char}

theorem continuesWord_of_readLifetime {l rest : List Char} (h : readLifetime s = .ok (l, rest)) :
    continuesWord rest = false := by
  unfold readLifetime at h
  split at h
  · obtain ⟨⟨word, after⟩, hw, he⟩ := map_eq_ok_iff.1 h
    obtain ⟨-, rfl⟩ := Prod.mk.inj he
    exact (word?_eq_some (readIdentifier_eq_ok_iff.1 hw)).2.2
  · cases h

theorem readLifetime_local : Reader.LocalAt readLifetime readLifetime s tail := by
  intro rest l hb h
  have hw := continuesWord_of_readLifetime h
  obtain ⟨hs, word, hl, hword⟩ := eq_of_readLifetime h
  rw [← List.append_assoc] at hs
  rw [List.append_cancel_right hs]
  exact ⟨readLifetime_append ⟨word, hword, hl⟩ (continuesWord_left hw), hb.word_append hw l⟩

theorem mutability_local : Reader.LocalAt mutability mutability s tail := by
  intro rest isMutable hb h
  have hkeyword {kw : List Char} (hk : keyword? kw (s ++ tail) = some (rest ++ tail)) :
      s = kw ++ rest ∧ IsWordBreak s tail := by
    obtain ⟨he, hw⟩ := keyword?_eq_some_iff.1 hk
    rw [← List.append_assoc] at he
    have hs := List.append_cancel_right he
    exact ⟨hs, hs ▸ hb.word_append hw kw⟩
  unfold mutability at h ⊢
  split at h
  · rename_i after hm
    obtain ⟨rfl, rfl⟩ := Prod.mk.inj (Except.ok.inj h)
    rw [keyword?_left hm]
    exact ⟨rfl, (hkeyword hm).2⟩
  · rename_i after hm hc
    obtain ⟨rfl, rfl⟩ := Prod.mk.inj (Except.ok.inj h)
    obtain ⟨hs, hbreak⟩ := hkeyword hc
    have hnone : keyword? "mut".toList s = none := by
      rw [hs]
      exact keyword?_eq_none_of_head (by decide)
    rw [hnone, keyword?_left hc]
    exact ⟨rfl, hbreak⟩
  · cases h

/-- A path ends where no word goes on with it, and what follows may be cut off anywhere. -/
theorem pathChars_cut (s : List Char) : continuesWord (pathChars s).2 = false ∧
    ∀ t, t <+: (pathChars s).2 → pathChars ((pathChars s).1 ++ t) = ((pathChars s).1, t) := by
  fun_induction pathChars s with
  | case1 c rest hc ih =>
    refine ⟨ih.1, fun t ht => ?_⟩
    have hpath := ih.2 t ht
    simp only [Prod.map, id, List.cons_append] at hpath ⊢
    rw [pathChars, if_pos hc, hpath]
    rfl
  | case2 c rest hc =>
    refine ⟨rfl, fun t ht => ?_⟩
    -- Two colons that no segment follows end a path, and so does what is left of them.
    obtain rfl | ⟨u, rfl, hu⟩ := List.prefix_cons_iff.1 ht
    · rfl
    obtain rfl | ⟨v, rfl, hv⟩ := List.prefix_cons_iff.1 hu
    · rfl
    obtain rfl | ⟨w, rfl, -⟩ := List.prefix_cons_iff.1 hv
    · rfl
    · rw [List.nil_append, pathChars, if_neg hc]
  | case3 c rest hcolon hc ih =>
    refine ⟨ih.1, fun t ht => ?_⟩
    have hpath := pathChars_word_append (s := [c]) (by simpa using hc) ((pathChars rest).1 ++ t)
    rw [ih.2 t ht] at hpath
    exact hpath
  | case4 c rest hcolon hc =>
    refine ⟨Bool.eq_false_iff.2 hc, fun t ht => ?_⟩
    obtain rfl | ⟨u, rfl, v, hv⟩ := List.prefix_cons_iff.1 ht
    · rfl
    rw [List.nil_append, pathChars, if_neg hc]
    rintro d w rfl rfl
    exact hcolon d (w ++ v) rfl hv.symm
  | case5 => exact ⟨rfl, fun t ht => by rw [List.prefix_nil.1 ht]; rfl⟩

theorem readPlainPath_local : Reader.LocalAt readPlainPath readPlainPath s tail := by
  intro rest path hb h
  unfold readPlainPath at h
  split at h
  · rename_i c after hs
    split at h
    · rename_i hc
      obtain ⟨hpath, hrest⟩ := Prod.mk.inj (Except.ok.inj h)
      obtain rfl : c :: (pathChars after).1 = path := hpath
      have hrest : (pathChars after).2 = rest ++ tail := hrest
      obtain ⟨hw, hcut⟩ := pathChars_cut after
      have hafter := pathChars_append after
      rw [hrest] at hw hcut hafter
      rw [← hafter, ← List.append_assoc, ← List.cons_append] at hs
      rw [List.append_cancel_right hs, readPlainPath, if_pos hc, hcut rest (List.prefix_append _ _)]
      exact ⟨rfl, hb.word_append hw (c :: (pathChars after).1)⟩
    · cases h
  · cases h

theorem readPath_local : Reader.LocalAt readPath readPath s tail := by
  intro rest path hb h
  unfold readPath at h ⊢
  cases hs : strip? "::".toList (s ++ tail) with
  | some after =>
    rw [hs, Option.getD_some] at h
    obtain ⟨t, rfl⟩ := exists_append_of_suffix (readPlainPath_advances h).1
    have hcolons := strip?_eq_some_iff.1 hs
    rw [← List.append_assoc] at hcolons
    obtain rfl := List.append_cancel_right hcolons
    obtain ⟨hpath, hbreak⟩ := readPlainPath_local hb h
    rw [strip?_append, Option.getD_some]
    exact ⟨hpath, (hbreak.cons rfl).cons rfl⟩
  | none =>
    have hnone : strip? "::".toList s = none := by
      rw [Option.eq_none_iff_forall_ne_some]
      intro t ht
      rw [strip?_eq_some_iff.1 ht, List.append_assoc, strip?_append] at hs
      cases hs
    rw [hs, Option.getD_none] at h
    rw [hnone, Option.getD_none]
    exact readPlainPath_local hb h

theorem enclosed_keeps : Reader.Keeps enclosed := fun h => (enclosed_after h).1

theorem enclosed_local : Reader.LocalAt enclosed enclosed s tail := by
  intro rest inner hb h
  obtain ⟨b, hs⟩ := Bracket.eq_of_enclosed h
  rw [hs] at h
  have hclose := Bracket.enclosed_closer h rest
  have hpart : s = b.opener :: inner ++ b.closer :: rest := by
    refine List.append_cancel_right (hs.trans ?_)
    rw [List.append_assoc]
    rfl
  rw [hpart]
  exact ⟨hclose, hb.mark_append b.isWordChar_closer _⟩

/-- A bracket behind white space is closed where it was. -/
theorem enclosed_trimStart_local {c : Char} {args inner rest : List Char}
    (hs : trimStart (s ++ tail) = c :: args) (hb : IsWordBreak rest tail)
    (h : enclosed (c :: args) = .ok (inner, rest ++ tail)) : ∃ args',
      trimStart s = c :: args' ∧ enclosed (c :: args') = .ok (inner, rest) ∧
        IsWordBreak s tail := by
  rw [← hs] at h
  have hlocal := enclosed_local.trimStart enclosed_keeps hb h
  obtain ⟨hread, hbreak⟩ : enclosed (trimStart s) = .ok (inner, rest) ∧ _ := hlocal
  have hne : trimStart s ≠ [] := by
    intro hnil
    rw [hnil] at hread
    cases hread
  obtain ⟨args', hstart, -⟩ := exists_trimStart_cons hs hne
  rw [hstart] at hread
  exact ⟨args', hstart, hread, hbreak⟩

end Words

namespace Modifiers

variable {s tail : List Char}

theorem readLifetime?_local : Reader.LocalAt readLifetime? readLifetime? s tail := by
  intro rest lifetime hb h
  unfold readLifetime? at h
  split at h
  · rename_i hs
    rw [← hs] at h
    obtain ⟨⟨l, after⟩, hl, he⟩ := map_eq_ok_iff.1 h
    obtain ⟨rfl, htrim⟩ := Prod.mk.inj he
    obtain ⟨blank, hblank, hafter, hrest⟩ := exists_blank_of_trimStart htrim
    rw [hafter] at hl
    obtain ⟨hread, hbreak⟩ := readLifetime_local (hb.blank_append hblank) hl
    rw [readLifetime?_of_ok hread, hrest]
    exact ⟨rfl, hbreak⟩
  · rename_i hquote
    obtain ⟨rfl, hs⟩ := Prod.mk.inj (Except.ok.inj h)
    obtain rfl := List.append_cancel_right hs
    refine ⟨?_, hb⟩
    unfold readLifetime?
    split
    · exact (hquote _ rfl).elim
    · rfl

theorem readMut_local :
    Reader.LocalAt (fun x => .ok (readMut x)) (fun x => .ok (readMut x)) s tail := by
  intro rest isMutable hb h
  have hword : ∀ c ∈ mutWord, isWordChar c = true := by decide
  have hread : readMut (s ++ tail) = (isMutable, rest ++ tail) := Except.ok.inj h
  suffices readMut s = (isMutable, rest) ∧ IsWordBreak s tail from ⟨congrArg _ this.1, this.2⟩
  unfold readMut at hread ⊢
  cases hk : keyword? mutWord (s ++ tail) with
  | some after =>
    rw [hk] at hread
    obtain ⟨rfl, htrim⟩ := Prod.mk.inj hread
    obtain ⟨blank, hblank, hafter, hrest⟩ := exists_blank_of_trimStart htrim
    rw [hafter] at hk
    obtain ⟨hs, -⟩ := keyword?_eq_some_iff.1 (keyword?_left hk)
    rw [keyword?_left hk, hs]
    refine ⟨congrArg _ hrest, ?_⟩
    exact (hb.blank_append hblank).word_append (keyword?_eq_some_iff.1 hk).2 mutWord
  | none =>
    rw [hk] at hread
    obtain ⟨rfl, hs⟩ := Prod.mk.inj hread
    obtain rfl := List.append_cancel_right hs
    have hnone : keyword? mutWord s = none := by
      by_cases hs : s = []
      · rw [hs]
        rfl
      · exact keyword?_eq_none_left hword hs hb hk
    rw [hnone]
    exact ⟨rfl, hb⟩

theorem read_ampersand_local :
    Reader.LocalAt (fun x => read ('&' :: x)) (fun x => read ('&' :: x)) s tail := by
  intro rest m hb h
  obtain ⟨middle, hl, hr, hm⟩ := read_eq_ok_iff.1 h
  have hrest := readMut_suffix middle
  rw [hm] at hrest
  obtain ⟨t, rfl⟩ := exists_append_of_suffix hrest
  obtain ⟨hm, hb⟩ := readMut_local hb (congrArg Except.ok hm)
  obtain ⟨hl, hb⟩ := readLifetime?_local.trimStart readLifetime?_keeps hb hl
  exact ⟨read_eq_ok_iff.2 ⟨t, hl, hr, Except.ok.inj hm⟩, hb⟩

end Modifiers

end ApiSurface
