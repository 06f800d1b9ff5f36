import ApiSurface.Proofs.Local
import ApiSurface.Proofs.Shape.TypeExpr
import ApiSurface.Proofs.TypeExpr.Layer

namespace ApiSurface

open Text TopLevel
open ApiSurface.Bracket (enclosed)

/-- On texts up to a length, `read'` reads what `read` reads. -/
def Reader.Extends {α : Type} (n : Nat) (read read' : Reader α) : Prop :=
  ∀ ⦃s : List Char⦄ ⦃found : α × List Char⦄, s.length ≤ n → read s = .ok found →
    read' s = .ok found

/-- On texts up to a length, `read'` does without the end that `read` leaves. -/
def Reader.IsLocal {α : Type} (n : Nat) (read read' : Reader α) : Prop :=
  ∀ ⦃s : List Char⦄, s.length ≤ n → ∀ tail, read.LocalAt read' s tail

theorem Reader.IsLocal.extends {α : Type} {n : Nat} {read read' : Reader α}
    (h : read.IsLocal n read') : read.Extends n read' := by
  rintro s ⟨a, rest⟩ hn hr
  rw [← List.append_nil s, ← List.append_nil rest] at hr
  exact (h hn [] (IsWordBreak.of_continuesWord rfl) hr).1

section Whole

variable {α β ε : Type} {n : Nat} {s : List Char} {type type' : Reader TypeExpr}

theorem map_eq_ok_of_imp {x x' : Except ε α} {f : α → β} {b : β}
    (hx : ∀ a, x = .ok a → x' = .ok a) (h : x.map f = .ok b) : x'.map f = .ok b := by
  obtain ⟨a, ha, hb⟩ := map_eq_ok_iff.1 h
  exact map_eq_ok_iff.2 ⟨a, hx a ha, hb⟩

theorem mapM_eq_ok_of_imp {f f' : α → Except ε β} {l : List α} {bs : List β}
    (hf : ∀ a ∈ l, ∀ b, f a = .ok b → f' a = .ok b) (h : l.mapM f = .ok bs) :
    l.mapM f' = .ok bs := by
  induction l generalizing bs with
  | nil => exact h
  | cons a l ih =>
    rw [List.mapM_cons] at h ⊢
    obtain ⟨b, hb, h⟩ := bind_eq_ok_iff.1 h
    obtain ⟨more, hmore, h⟩ := bind_eq_ok_iff.1 h
    have hrest := ih (fun c hc => hf c (List.mem_cons_of_mem a hc)) hmore
    exact bind_eq_ok_iff.2 ⟨b, hf a List.mem_cons_self b hb, bind_eq_ok_iff.2 ⟨more, hrest, h⟩⟩

section Reader

variable [ToString α] {kind : String} {read read' : Reader α} (he : Reader.Extends n read read')
variable (hn : s.length ≤ n)
include he hn

theorem Reader.whole_of_extends {a : α} (h : Reader.whole kind read s = .ok a) :
    Reader.whole kind read' s = .ok a := by
  obtain ⟨found, hread, h⟩ := bind_eq_ok_iff.1 h
  exact bind_eq_ok_iff.2 ⟨found, he hn hread, h⟩

theorem Reader.mapM_whole_of_extends {as : List α}
    (h : (split ',' s).mapM (Reader.whole kind read) = .ok as) :
    (split ',' s).mapM (Reader.whole kind read') = .ok as :=
  mapM_eq_ok_of_imp (fun _ hp _ => whole_of_extends he ((length_of_mem_split hp).trans hn)) h

end Reader

variable (ht : type.Extends n type')
include ht

theorem TypeExpr.squareWith_of_extends (hn : s.length ≤ n) {t : TypeExpr}
    (h : TypeExpr.squareWith type s = .ok t) : TypeExpr.squareWith type' s = .ok t := by
  have hlength := (length_splitOnce_le ';' s).trans hn
  unfold TypeExpr.squareWith at h ⊢
  generalize splitOnce ';' s = cut at h hlength ⊢
  obtain ⟨element, length⟩ := cut
  cases length with
  | some length =>
    obtain ⟨inner, hi, h⟩ := bind_eq_ok_iff.1 h
    exact bind_eq_ok_iff.2 ⟨inner, Reader.whole_of_extends ht hlength hi, h⟩
  | none =>
    obtain ⟨inner, hi, h⟩ := bind_eq_ok_iff.1 h
    exact bind_eq_ok_iff.2 ⟨inner, Reader.whole_of_extends ht hlength hi, h⟩

theorem GenericArg.readWith_extends :
    Reader.Extends n (GenericArg.readWith type) (GenericArg.readWith type') := by
  intro s found hn h
  have hstart := (length_trimStart_le s).trans hn
  unfold GenericArg.readWith at h ⊢
  split at h
  · exact h
  · split at h
    · exact map_eq_ok_of_imp (fun _ => ht hstart) h
    · exact map_eq_ok_of_imp (fun _ => ht ((GenericArg.length_of_binding ‹_›).trans hstart)) h
    · exact map_eq_ok_of_imp (fun _ => ht hstart) h

end Whole

section Layer

variable {n : Nat} {type type' : Reader TypeExpr} {more more' : Reader (List GenericArg)}
variable {s u tail rest : List Char} {t : TypeExpr}

/-- What is built of the text in brackets. -/
theorem TypeExpr.bracketed_local {α : Type} (read read' : List Char → Except Fault α)
    (build : α → TypeExpr) {c : Char} (hu : u.length ≤ n)
    (hread : ∀ inner a, inner.length ≤ n → read inner = .ok a → read' inner = .ok a)
    (hb : IsWordBreak rest tail)
    (h : (enclosed (c :: (u ++ tail)) >>= fun p => read p.1 >>= fun a => .ok (build a, p.2)) =
      .ok (t, rest ++ tail)) :
    (enclosed (c :: u) >>= fun p => read' p.1 >>= fun a => .ok (build a, p.2)) = .ok (t, rest) ∧
      IsWordBreak (c :: u) tail := by
  obtain ⟨⟨inner, after⟩, hi, h⟩ := bind_eq_ok_iff.1 h
  obtain ⟨a, ha, h⟩ := bind_eq_ok_iff.1 h
  obtain ⟨rfl, rfl⟩ := Prod.mk.inj (Except.ok.inj h)
  obtain ⟨hi, hb⟩ := enclosed_local (s := c :: u) hb hi
  have hlength := Bracket.length_of_enclosed hi
  rw [List.length_cons] at hlength
  have hinner : inner.length ≤ n := by omega
  have ha := hread inner a hinner ha
  exact ⟨bind_eq_ok_iff.2 ⟨_, hi, bind_eq_ok_iff.2 ⟨_, ha, rfl⟩⟩, hb⟩

variable (ht : type.IsLocal n type')
include ht

variable (hadv : type.Advances)
include hadv

theorem GenericArg.readBoundWith_local :
    (GenericArg.readBoundWith type).IsLocal n (GenericArg.readBoundWith type') := by
  intro s hn tail rest a hb h
  have hstart := (length_trimStart_le s).trans hn
  unfold GenericArg.readBoundWith at h
  split at h
  · rename_i after hs
    rw [← hs] at h
    obtain ⟨⟨l, middle⟩, hread, he⟩ := map_eq_ok_iff.1 h
    obtain ⟨rfl, rfl⟩ := Prod.mk.inj he
    have hlocal := readLifetime_local.trimStart readLifetime_advances.keeps hb hread
    obtain ⟨hread, hb⟩ : readLifetime (trimStart s) = .ok (l, rest) ∧ _ := hlocal
    obtain ⟨t, hquote⟩ := exists_quote_of_readLifetime hread
    refine ⟨?_, hb⟩
    rw [GenericArg.readBoundWith, hquote]
    rw [hquote] at hread
    exact map_eq_ok_iff.2 ⟨_, hread, rfl⟩
  · rename_i hquote
    obtain ⟨⟨t, middle⟩, hread, he⟩ := map_eq_ok_iff.1 h
    obtain ⟨rfl, rfl⟩ := Prod.mk.inj he
    obtain ⟨hread, hb⟩ := (ht hstart tail).trimStart hadv.keeps hb hread
    refine ⟨?_, hb⟩
    unfold GenericArg.readBoundWith
    split
    · exact (hquote _ (trimStart_append_of_cons ‹_› tail)).elim
    · exact map_eq_ok_iff.2 ⟨_, hread, rfl⟩

theorem TypeExpr.resultWith_local :
    (TypeExpr.resultWith type).IsLocal n (TypeExpr.resultWith type') := by
  intro s hn tail rest result hb h
  unfold TypeExpr.resultWith at h
  split at h
  · rename_i after hs
    obtain ⟨⟨t, middle⟩, hread, he⟩ := map_eq_ok_iff.1 h
    obtain ⟨rfl, rfl⟩ := Prod.mk.inj he
    obtain ⟨u, rfl⟩ := exists_append_of_suffix (hadv hread).1
    have hstart : trimStart s = '-' :: '>' :: u := trimStart_eq_of_append hs
    have hlength := (length_trimStart_le s).trans hn
    rw [hstart, List.length_cons, List.length_cons] at hlength
    obtain ⟨hread, hb⟩ := ht (by omega) tail hb hread
    refine ⟨?_, IsWordBreak.of_trimStart (hstart ▸ (hb.cons rfl).cons rfl)⟩
    rw [TypeExpr.resultWith, hstart]
    exact map_eq_ok_iff.2 ⟨_, hread, rfl⟩
  · rename_i harrow
    obtain ⟨rfl, hs⟩ := Prod.mk.inj (Except.ok.inj h)
    obtain rfl := List.append_cancel_right hs
    refine ⟨?_, hb⟩
    unfold TypeExpr.resultWith
    split
    · exact (harrow _ (trimStart_append_of_cons ‹_› tail)).elim
    · rfl

theorem TypeExpr.namedWith_local (name : String) :
    (TypeExpr.namedWith type name).IsLocal n (TypeExpr.namedWith type' name) := by
  intro s hn tail rest t hb h
  have hlength := (length_trimStart_le s).trans hn
  unfold TypeExpr.namedWith at h
  split at h
  · rename_i args hs hkind
    obtain ⟨⟨inner, middle⟩, hi, h⟩ := bind_eq_ok_iff.1 h
    obtain ⟨params, hps, h⟩ := bind_eq_ok_iff.1 h
    obtain ⟨⟨result, after⟩, hr, h⟩ := bind_eq_ok_iff.1 h
    obtain ⟨rfl, rfl⟩ := Prod.mk.inj (Except.ok.inj h)
    obtain ⟨u, rfl⟩ := exists_append_of_suffix (TypeExpr.resultWith_keeps hadv hr)
    have hu := length_le_of_suffix ((enclosed_after hi).1.trans (hs ▸ trimStart_suffix (s ++ tail)))
    obtain ⟨hr, hb⟩ := TypeExpr.resultWith_local ht hadv (hu.trans hn) tail hb hr
    obtain ⟨args', hstart, hi, hb⟩ := enclosed_trimStart_local hs hb hi
    rw [hstart] at hlength
    have hinner := Bracket.length_of_enclosed hi
    refine ⟨?_, hb⟩
    rw [TypeExpr.namedWith, hstart, hkind]
    have hps := Reader.mapM_whole_of_extends ht.extends (by omega) hps
    exact bind_eq_ok_iff.2 ⟨_, hi, bind_eq_ok_iff.2 ⟨_, hps, bind_eq_ok_iff.2 ⟨_, hr, rfl⟩⟩⟩
  · rename_i args _ hs
    obtain ⟨⟨inner, middle⟩, hi, h⟩ := bind_eq_ok_iff.1 h
    obtain ⟨generics, hgs, h⟩ := bind_eq_ok_iff.1 h
    obtain ⟨rfl, rfl⟩ := Prod.mk.inj (Except.ok.inj h)
    obtain ⟨args', hstart, hi, hb⟩ := enclosed_trimStart_local hs hb hi
    rw [hstart] at hlength
    have hinner := Bracket.length_of_enclosed hi
    refine ⟨?_, hb⟩
    rw [TypeExpr.namedWith, hstart]
    have hgs := Reader.mapM_whole_of_extends (GenericArg.readWith_extends ht.extends) (by omega) hgs
    exact bind_eq_ok_iff.2 ⟨_, hi, bind_eq_ok_iff.2 ⟨_, hgs, rfl⟩⟩
  · rename_i hangle hround
    obtain ⟨rfl, hs⟩ := Prod.mk.inj (Except.ok.inj h)
    obtain rfl := List.append_cancel_right hs
    refine ⟨?_, hb⟩
    unfold TypeExpr.namedWith
    split
    · exact (hround _ (trimStart_append_of_cons ‹trimStart s = _› tail) ‹_›).elim
    · exact (hangle _ (trimStart_append_of_cons ‹_› tail)).elim
    · rfl

/-- What is built of marks and the type behind them. -/
theorem TypeExpr.marked_local {α : Type} {marks : Reader α} (build : α → TypeExpr → TypeExpr)
    (hmarks : marks.LocalAt marks u tail) (hkeeps : marks.Keeps) (hu : u.length ≤ n)
    (hb : IsWordBreak rest tail)
    (h : (marks (u ++ tail) >>= fun m => type m.2 >>= fun t => .ok (build m.1 t.1, t.2)) =
      .ok (t, rest ++ tail)) :
    (marks u >>= fun m => type' m.2 >>= fun t => .ok (build m.1 t.1, t.2)) = .ok (t, rest) ∧
      IsWordBreak u tail := by
  obtain ⟨⟨m, middle⟩, hm, h⟩ := bind_eq_ok_iff.1 h
  obtain ⟨⟨inner, after⟩, hi, h⟩ := bind_eq_ok_iff.1 h
  obtain ⟨rfl, rfl⟩ := Prod.mk.inj (Except.ok.inj h)
  obtain ⟨v, rfl⟩ := exists_append_of_suffix (hadv hi).1
  have hv := length_le_of_suffix (hkeeps hm)
  obtain ⟨hi, hb⟩ := ht (hv.trans hu) tail hb hi
  obtain ⟨hm, hb⟩ := hmarks hb hm
  exact ⟨bind_eq_ok_iff.2 ⟨_, hm, bind_eq_ok_iff.2 ⟨_, hi, rfl⟩⟩, hb⟩

variable (hm : more.IsLocal n more') (hk : more.Keeps)
include hm hk

theorem GenericArg.readBoundsWith_local : (GenericArg.readBoundsWith type more).IsLocal n
    (GenericArg.readBoundsWith type' more') := by
  intro s hn tail rest bounds hb h
  obtain ⟨⟨bound, middle⟩, hbound, h⟩ := bind_eq_ok_iff.1 h
  obtain ⟨⟨bounds, after⟩, hmore, h⟩ := bind_eq_ok_iff.1 h
  obtain ⟨rfl, rfl⟩ := Prod.mk.inj (Except.ok.inj h)
  obtain ⟨t, rfl⟩ := exists_append_of_suffix (hk hmore)
  have hkeeps := (GenericArg.readBoundWith_advances hadv hbound).1
  obtain ⟨hmore, hb⟩ := hm ((length_le_of_suffix hkeeps).trans hn) tail hb hmore
  obtain ⟨hbound, hb⟩ := GenericArg.readBoundWith_local ht hadv hn tail hb hbound
  exact ⟨bind_eq_ok_iff.2 ⟨_, hbound, bind_eq_ok_iff.2 ⟨_, hmore, rfl⟩⟩, hb⟩

theorem GenericArg.moreLevel_local : (GenericArg.moreLevel type more).IsLocal (n + 1)
    (GenericArg.moreLevel type' more') := by
  intro s hn tail rest bounds hb h
  unfold GenericArg.moreLevel at h
  split at h
  · rename_i after hs
    have hkeeps := (GenericArg.readBoundsWith_advances hadv hk h).1
    obtain ⟨u, rfl⟩ := exists_append_of_suffix hkeeps
    have hstart : trimStart s = '+' :: u := trimStart_eq_of_append hs
    have hlength := (length_trimStart_le s).trans hn
    rw [hstart, List.length_cons] at hlength
    obtain ⟨hread, hb⟩ :=
      GenericArg.readBoundsWith_local ht hadv hm hk (by omega) tail hb h
    refine ⟨?_, IsWordBreak.of_trimStart (hstart ▸ hb.cons rfl)⟩
    rw [GenericArg.moreLevel, hstart]
    exact hread
  · rename_i hplus
    obtain ⟨rfl, hs⟩ := Prod.mk.inj (Except.ok.inj h)
    obtain rfl := List.append_cancel_right hs
    refine ⟨?_, hb⟩
    unfold GenericArg.moreLevel
    split
    · exact (hplus _ (trimStart_append_of_cons ‹_› tail)).elim
    · rfl

/-- Behind a keyword that is found, the bounds are the same. -/
theorem GenericArg.readBoundsWith_keyword {kw s tail after rest : List Char}
    {bounds : List GenericArg} (hkw : kw ≠ []) (hn : s.length ≤ n + 1) (hb : IsWordBreak rest tail)
    (hafter : keyword? kw (s ++ tail) = some after)
    (h : GenericArg.readBoundsWith type more after = .ok (bounds, rest ++ tail)) : ∃ after',
      keyword? kw s = some after' ∧
        GenericArg.readBoundsWith type' more' after' = .ok (bounds, rest) ∧ IsWordBreak s tail := by
  obtain ⟨u, rfl⟩ := exists_append_of_suffix (GenericArg.readBoundsWith_advances hadv hk h).1
  have hs := keyword?_left hafter
  have hlength := Lead.length_of_keyword? hkw hs
  obtain ⟨hread, hb⟩ :=
    GenericArg.readBoundsWith_local ht hadv hm hk (by omega) tail hb h
  refine ⟨u, hs, hread, ?_⟩
  rw [(keyword?_eq_some_iff.1 hs).1]
  exact hb.word_append (keyword?_eq_some_iff.1 hafter).2 kw

theorem TypeExpr.wordLevel_local :
    (TypeExpr.wordLevel type more).IsLocal (n + 1) (TypeExpr.wordLevel type' more') := by
  -- No keyword may come or go with the tail. That no word runs on into it is known only from what is
  -- read behind the keyword or the path, so each case settles that part first.
  intro s hn tail rest t hb h
  have himpl : ∀ c ∈ "impl".toList, isWordChar c = true := by decide
  have hdyn : ∀ c ∈ "dyn".toList, isWordChar c = true := by decide
  unfold TypeExpr.wordLevel at h
  split at h
  · rename_i after _ hi
    obtain ⟨⟨bounds, middle⟩, hbounds, he⟩ := map_eq_ok_iff.1 h
    obtain ⟨rfl, rfl⟩ := Prod.mk.inj he
    obtain ⟨after', hi, hread, hb⟩ :=
      GenericArg.readBoundsWith_keyword ht hadv hm hk (by decide) hn hb hi hbounds
    refine ⟨?_, hb⟩
    rw [TypeExpr.wordLevel, hi]
    exact map_eq_ok_iff.2 ⟨_, hread, rfl⟩
  · rename_i after hi hd
    obtain ⟨⟨bounds, middle⟩, hbounds, he⟩ := map_eq_ok_iff.1 h
    obtain ⟨rfl, rfl⟩ := Prod.mk.inj he
    obtain ⟨after', hd, hread, hb⟩ :=
      GenericArg.readBoundsWith_keyword ht hadv hm hk (by decide) hn hb hd hbounds
    have hs : s ≠ [] := by
      rintro rfl
      cases hd
    refine ⟨?_, hb⟩
    rw [TypeExpr.wordLevel, keyword?_eq_none_left himpl hs hb hi, hd]
    exact map_eq_ok_iff.2 ⟨_, hread, rfl⟩
  · rename_i hi hd
    obtain ⟨⟨path, middle⟩, hpath, hname⟩ := bind_eq_ok_iff.1 h
    obtain ⟨u, rfl⟩ := exists_append_of_suffix (TypeExpr.namedWith_keeps hadv _ hname)
    have hlength := (readPath_advances hpath).2
    rw [List.length_append, List.length_append] at hlength
    obtain ⟨hname, hb⟩ := TypeExpr.namedWith_local ht hadv _ (by omega) tail hb hname
    obtain ⟨hpath, hb⟩ := readPath_local hb hpath
    have hs : s ≠ [] := by
      rintro rfl
      cases hpath
    refine ⟨?_, hb⟩
    rw [TypeExpr.wordLevel, keyword?_eq_none_left himpl hs hb hi,
      keyword?_eq_none_left hdyn hs hb hd]
    exact bind_eq_ok_iff.2 ⟨_, hpath, hname⟩

theorem TypeExpr.level_local :
    (TypeExpr.level type more).IsLocal (n + 1) (TypeExpr.level type' more') := by
  intro s hn tail rest t hb h
  have hlength := (length_trimStart_le s).trans hn
  -- A character is taken and none of the tail, so `s` is not blank.
  obtain ⟨c, u, hs⟩ : ∃ c u, trimStart s = c :: u := by
    obtain ⟨hsuffix, hlt⟩ := TypeExpr.level_advances hadv hk ((TypeExpr.level_trimStart _).trans h)
    have htrim := trimStart_append_of_suffix ((List.suffix_append rest tail).trans hsuffix)
    rw [htrim, List.length_append, List.length_append] at hlt
    exact List.exists_cons_of_length_pos (by omega)
  rw [hs, List.length_cons] at hlength
  have hu := Nat.le_of_succ_le_succ hlength
  suffices TypeExpr.level type' more' s = .ok (t, rest) ∧ IsWordBreak (c :: u) tail from
    ⟨this.1, IsWordBreak.of_trimStart (hs ▸ this.2)⟩
  by_cases hmark : c ∈ ['&', '*', '(', '[']
  · simp only [List.mem_cons, List.not_mem_nil, or_false] at hmark
    have happend := trimStart_append_of_cons hs tail
    rcases hmark with rfl | rfl | rfl | rfl
    · rw [TypeExpr.level_ampersand happend] at h
      rw [TypeExpr.level_ampersand hs]
      have hmarks := TypeExpr.marked_local ht hadv (fun m => .reference m.isMutable m.lifetime)
        Modifiers.read_ampersand_local (fun h => Modifiers.read_ampersand_suffix h) hu hb h
      exact hmarks.imp_right (IsWordBreak.cons · rfl)
    · rw [TypeExpr.level_star happend] at h
      rw [TypeExpr.level_star hs]
      have hmarks := TypeExpr.marked_local ht hadv .pointer
        (mutability_local.trimStart mutability_keeps)
        (fun h => (mutability_keeps h).trans (trimStart_suffix _)) hu hb h
      exact hmarks.imp_right (IsWordBreak.cons · rfl)
    · rw [TypeExpr.level_round happend] at h
      rw [TypeExpr.level_round hs]
      exact TypeExpr.bracketed_local (fun inner => (split ',' inner).mapM (TypeExpr.wholeWith type))
        (fun inner => (split ',' inner).mapM (TypeExpr.wholeWith type')) .tuple hu
        (fun _ _ h => Reader.mapM_whole_of_extends ht.extends h) hb h
    · rw [TypeExpr.level_square happend] at h
      rw [TypeExpr.level_square hs]
      exact TypeExpr.bracketed_local (TypeExpr.squareWith type) (TypeExpr.squareWith type') id hu
        (fun _ _ h => TypeExpr.squareWith_of_extends ht.extends h) hb h
  · rw [TypeExpr.level_of_head (trimStart_append_of_cons hs tail) hmark] at h
    rw [TypeExpr.level_of_head hs hmark]
    exact TypeExpr.wordLevel_local ht hadv hm hk (s := c :: u) hlength tail hb h

end Layer

/-- Where nothing is taken, the list of bounds does not go on. -/
theorem GenericArg.eq_nil_of_moreWithin {m : Nat} {s rest : List Char} {bounds : List GenericArg}
    (h : GenericArg.moreWithin m s = .ok (bounds, rest)) (hle : s.length ≤ rest.length) :
    bounds = [] := by
  cases m with
  | zero => exact (Prod.mk.inj (Except.ok.inj h)).1.symm
  | succ m =>
    obtain ⟨htype, hmore⟩ := TypeExpr.readWithin_advances m
    change GenericArg.moreLevel _ _ s = _ at h
    unfold GenericArg.moreLevel at h
    split at h
    · rename_i after hs
      have hlength := congrArg List.length hs
      have hlt := (GenericArg.readBoundsWith_advances htype hmore h).2
      have htrim := length_trimStart_le s
      rw [List.length_cons] at hlength
      omega
    · exact (Prod.mk.inj (Except.ok.inj h)).1.symm

/-- What is read to one depth is read to a smaller one off a text that is short enough for it. -/
theorem TypeExpr.readWithin_local {n m : Nat} (hm : n ≤ m) :
    (TypeExpr.readWithin m).IsLocal n (TypeExpr.readWithin n) ∧
      (GenericArg.moreWithin m).IsLocal n (GenericArg.moreWithin n) := by
  -- The depth bounds the length of the text too: a level takes a character before it goes deeper.
  induction n generalizing m with
  | zero =>
    constructor
    · intro s hn tail rest t _ h
      obtain rfl := List.length_eq_zero_iff.1 (Nat.le_zero.1 hn)
      have hlt := ((TypeExpr.readWithin_advances m).1 h).2
      rw [List.length_append, List.length_append] at hlt
      omega
    · intro s hn tail rest bounds hb h
      obtain rfl := List.length_eq_zero_iff.1 (Nat.le_zero.1 hn)
      have hle := length_le_of_suffix ((TypeExpr.readWithin_advances m).2 h)
      obtain rfl := List.length_eq_zero_iff.1 (Nat.le_zero.1 hle)
      rw [GenericArg.eq_nil_of_moreWithin h (Nat.le_refl _)]
      exact ⟨rfl, hb⟩
  | succ n ih =>
    obtain ⟨m, rfl⟩ := Nat.exists_eq_succ_of_ne_zero (Nat.ne_zero_of_lt hm)
    obtain ⟨htype, hmore⟩ := ih (Nat.le_of_succ_le_succ hm)
    have hadv := TypeExpr.readWithin_advances m
    exact ⟨TypeExpr.level_local htype hadv.1 hmore hadv.2,
      GenericArg.moreLevel_local htype hadv.1 hmore hadv.2⟩

theorem TypeExpr.read_local {s tail : List Char} : TypeExpr.read.LocalAt TypeExpr.read s tail :=
  (TypeExpr.readWithin_local (by rw [List.length_append]; omega)).1 (Nat.le_refl _) tail

section Argument

variable {s rest tail name after more : List Char} {t : TypeExpr} {a : GenericArg}

/-- No type begins with an equals sign. -/
theorem TypeExpr.readWithin_equals_ne_ok {m : Nat} (hs : trimStart s = '=' :: more) :
    TypeExpr.readWithin m s ≠ .ok (t, rest) := by
  intro h
  cases m with
  | zero => cases h
  | succ m =>
    change TypeExpr.level _ _ s = _ at h
    have hnone {kw : List Char} (hk : isIdentifier kw = true) : keyword? kw ('=' :: more) = none :=
      keyword?_eq_none_of_not_isWordChar hk rfl more
    rw [TypeExpr.level_of_head hs (by decide), TypeExpr.wordLevel, hnone (by decide),
      hnone (by decide)] at h
    cases h

/-- Of a name in front of an equals sign only the name is read. -/
theorem TypeExpr.readWithin_name {m : Nat} (hname : isIdentifier name = true)
    (hw : continuesWord after = false) (ha : trimStart after = '=' :: more)
    (h : TypeExpr.readWithin m (name ++ after) = .ok (t, rest)) : rest = after := by
  cases m with
  | zero => cases h
  | succ m =>
    have hword := forall_isWordChar_of_isIdentifier hname
    have hbounds {bounds : List GenericArg} {x : List Char} :
        GenericArg.readBoundsWith (TypeExpr.readWithin m) (GenericArg.moreWithin m) after ≠
          .ok (bounds, x) := by
      intro hb
      obtain ⟨⟨bound, middle⟩, hbound, -⟩ := bind_eq_ok_iff.1 hb
      rw [GenericArg.readBoundWith, ha] at hbound
      obtain ⟨⟨t, middle⟩, ht, -⟩ := map_eq_ok_iff.1 hbound
      exact TypeExpr.readWithin_equals_ne_ok (trimStart_cons rfl) ht
    obtain ⟨c, w, rfl, hc⟩ := exists_cons_of_isIdentifier hname
    have hhead : trimStart (c :: (w ++ after)) = c :: (w ++ after) :=
      trimStart_cons (isBlank_of_isWordChar (isWordChar_of_isWordStart hc))
    change TypeExpr.level _ _ (c :: (w ++ after)) = _ at h
    rw [TypeExpr.level_word hhead hc] at h
    split at h
    · rename_i hi
      obtain ⟨⟨bounds, middle⟩, hb, -⟩ := map_eq_ok_iff.1 h
      rw [eq_of_keyword?_append (by decide) hword hw hi] at hb
      exact (hbounds hb).elim
    · rename_i hd
      obtain ⟨⟨bounds, middle⟩, hb, -⟩ := map_eq_ok_iff.1 h
      rw [eq_of_keyword?_append (by decide) hword hw hd] at hb
      exact (hbounds hb).elim
    · have hcolon : after.head? ≠ some ':' := by
        intro hcolon
        obtain ⟨u, rfl⟩ := List.head?_eq_some_iff.1 hcolon
        rw [trimStart_cons rfl] at ha
        cases ha
      have hpath : readPath (c :: w ++ after) = .ok (c :: w, after) := by
        simpa using readPath_segments hname (fun _ h => absurd h List.not_mem_nil) hw hcolon
      have hplain : TypeExpr.namedWith (TypeExpr.readWithin m) (String.ofList (c :: w)) after =
          .ok (.named (String.ofList (c :: w)) [], after) := by
        refine TypeExpr.namedWith_plain ?_
        rw [ha]
        rintro d ⟨⟩
        decide
      obtain ⟨found, hp, h⟩ := bind_eq_ok_iff.1 h
      obtain rfl := Except.ok.inj (hpath.symm.trans hp)
      rw [hplain] at h
      exact (Prod.mk.inj (Except.ok.inj h)).2.symm

theorem GenericArg.readWith_advances {type : Reader TypeExpr} (ht : type.Advances) :
    (GenericArg.readWith type).Advances := by
  intro s a rest h
  obtain ⟨l, hl, -⟩ | ⟨word, after, bound, t, hw, ha, -, hb, -⟩ | ⟨-, t, hr, -⟩ :=
    GenericArg.readWith_cases h
  · obtain ⟨hsuffix, hlt⟩ := readLifetime_advances hl
    exact ⟨hsuffix.trans (trimStart_suffix s), hlt.trans_le (length_trimStart_le s)⟩
  · obtain ⟨hsuffix, hlt⟩ := ht hb
    have hbound : bound <:+ trimStart s := by
      rw [(word?_eq_some hw).1]
      refine List.IsSuffix.trans ?_ (List.suffix_append word after)
      exact (List.suffix_cons '=' bound).trans (ha ▸ trimStart_suffix after)
    have hs := hbound.trans (trimStart_suffix s)
    exact ⟨hsuffix.trans hs, hlt.trans_le hs.length_le⟩
  · obtain ⟨hsuffix, hlt⟩ := ht hr
    exact ⟨hsuffix.trans (trimStart_suffix s), hlt.trans_le (length_trimStart_le s)⟩

/-- An argument is read off the characters it takes as it is off the whole text. -/
theorem GenericArg.read_taken (h : GenericArg.read (s ++ tail) = .ok (a, tail)) :
    GenericArg.read s = .ok (a, []) := by
  have hb := IsWordBreak.nil tail
  obtain ⟨l, hl, rfl⟩ | ⟨word, after, bound, t, hw, ha, hone, hr, rfl⟩ | ⟨hquote, t, hr, rfl⟩ :=
    GenericArg.readWith_cases h
  · have hlocal := readLifetime_local.trimStart readLifetime_advances.keeps hb hl
    exact GenericArg.readWith_lifetime hlocal.1
  · obtain ⟨⟨u, rfl⟩, hlt⟩ := TypeExpr.read_advances hr
    obtain ⟨hs, hword, hend⟩ := word?_eq_some hw
    obtain ⟨blank, -, rfl, hafter⟩ := exists_blank_of_trimStart (t := '=' :: u) ha
    rw [← List.append_assoc] at hs
    have hw := word?_append hword (continuesWord_left hend)
    rw [← trimStart_eq_of_append hs] at hw
    have hone : u.head? ≠ some '=' := by
      intro hu
      obtain ⟨v, rfl⟩ := List.head?_eq_some_iff.1 hu
      exact hone rfl
    obtain ⟨hr, -⟩ := TypeExpr.read_local hb hr
    rw [GenericArg.read, GenericArg.readWith_binding hw hafter hone, hr]
    rfl
  · have hlocal := TypeExpr.read_local.trimStart TypeExpr.read_advances.keeps hb hr
    obtain ⟨hread, -⟩ : TypeExpr.read (trimStart s) = .ok (t, []) ∧ _ := hlocal
    rw [GenericArg.read, GenericArg.readWith_type, hread]
    · rfl
    · exact fun u hu => hquote _ (trimStart_append_of_cons hu tail)
    · -- A name before an equals sign would be all that is read, and the sign would be left.
      intro word after more hw ha
      obtain ⟨hs, hword, hend⟩ := word?_eq_some hw
      have hne : after ≠ [] := by
        rintro rfl
        cases ha
      have hend : continuesWord (after ++ tail) = false := by
        cases after with
        | nil => exact absurd rfl hne
        | cons c after => exact hend
      have hstart : trimStart s ≠ [] := by
        rw [hs]
        exact List.append_ne_nil_of_right_ne_nil word hne
      rw [trimStart_append hstart, hs, List.append_assoc] at hr
      have htail := TypeExpr.readWithin_name hword hend (trimStart_append_of_cons ha tail) hr
      exact absurd (List.append_left_eq_self.1 htail.symm) hne

end Argument

/-- What a type or an argument is read as depends on the characters it takes only, which are one at
least: the same is read where the text ends behind them. -/
theorem TypeExpr.read_isLocal (s rest : List Char) :
    (∀ t, TypeExpr.read s = .ok (t, rest) →
      ∃ taken, taken ≠ [] ∧ s = taken ++ rest ∧ TypeExpr.read taken = .ok (t, [])) ∧
    ∀ a, GenericArg.read s = .ok (a, rest) →
      ∃ taken, taken ≠ [] ∧ s = taken ++ rest ∧ GenericArg.read taken = .ok (a, []) := by
  constructor
  · intro t h
    obtain ⟨⟨taken, rfl⟩, hlt⟩ := TypeExpr.read_advances h
    have hne : taken ≠ [] := by
      rintro rfl
      exact Nat.lt_irrefl _ hlt
    exact ⟨taken, hne, rfl, (TypeExpr.read_local (IsWordBreak.nil rest) h).1⟩
  · intro a h
    obtain ⟨⟨taken, rfl⟩, hlt⟩ := GenericArg.readWith_advances TypeExpr.read_advances h
    have hne : taken ≠ [] := by
      rintro rfl
      exact Nat.lt_irrefl _ hlt
    exact ⟨taken, hne, rfl, GenericArg.read_taken h⟩

/-- Bounds in front of a sign that is no plus, and a name in front of two equals signs. -/
theorem TypeExpr.read_isLocal_signs :
    let bounds := "impl Fn(u8) + 'a".toList
    let rest := " ->".toList
    let name := "Item".toList
    let after := " == u8".toList
    (∃ t, TypeExpr.read (bounds ++ rest) = .ok (t, rest) ∧ TypeExpr.read bounds = .ok (t, [])) ∧
      ∃ a, GenericArg.read (name ++ after) = .ok (a, after) ∧
        GenericArg.read name = .ok (a, []) := by
  intro bounds rest name after
  constructor
  · let callable := TypeExpr.fnTrait "Fn" [.named "u8" []] none
    have h : TypeExpr.read (bounds ++ rest) =
        .ok (.implBound [.type callable, .lifetime "'a"], rest) := by decide +kernel
    obtain ⟨taken, -, hs, hr⟩ := (TypeExpr.read_isLocal _ _).1 _ h
    rw [← List.append_cancel_right hs] at hr
    exact ⟨_, h, hr⟩
  · have h : GenericArg.read (name ++ after) = .ok (.type (.named "Item" []), after) := by
      decide +kernel
    obtain ⟨taken, -, hs, hr⟩ := (TypeExpr.read_isLocal _ _).2 _ h
    rw [← List.append_cancel_right hs] at hr
    exact ⟨_, h, hr⟩

end ApiSurface
