import ApiSurface.TypeExpr.Reader

namespace ApiSurface

open Text TopLevel
open ApiSurface.Bracket (enclosed)

theorem Reader.Advances.keeps {α : Type} {read : Reader α} (h : read.Advances) : read.Keeps :=
  fun hr => (h hr).1

theorem enclosed_after {s inner after : List Char} (h : enclosed s = .ok (inner, after)) :
    after <:+ s ∧ after.length < s.length := by
  obtain ⟨b, rfl⟩ := Bracket.eq_of_enclosed h
  refine ⟨⟨b.opener :: inner ++ [b.closer], by simp⟩, ?_⟩
  simp only [List.length_cons, List.length_append]
  omega

theorem keyword?_after {kw s rest : List Char} (h : keyword? kw s = some rest) : rest <:+ s :=
  ⟨kw, (keyword?_eq_some_iff.1 h).1.symm⟩

theorem readIdentifier_advances : Reader.Advances readIdentifier := by
  intro s word rest h
  obtain ⟨rfl, hw, -⟩ := word?_eq_some (readIdentifier_eq_ok_iff.1 h)
  refine ⟨List.suffix_append _ _, ?_⟩
  cases word with
  | nil => simp [isIdentifier] at hw
  | cons c word =>
    simp only [List.length_append, List.length_cons]
    omega

theorem readLifetime_advances : Reader.Advances readLifetime := by
  intro s l rest h
  obtain ⟨rfl, word, rfl, -⟩ := eq_of_readLifetime h
  refine ⟨List.suffix_append _ _, ?_⟩
  simp only [List.length_append, List.length_cons]
  omega

namespace Modifiers

theorem readAmpersand_suffix (s : List Char) : (readAmpersand s).2 <:+ s := by
  unfold readAmpersand
  split
  · exact (trimStart_suffix _).trans (List.suffix_cons _ _)
  · exact List.suffix_rfl

theorem readLifetime?_keeps : Reader.Keeps readLifetime? := by
  intro s a rest h
  unfold readLifetime? at h
  split at h
  · obtain ⟨⟨l, after⟩, hl, he⟩ := map_eq_ok_iff.1 h
    simp only [Prod.mk.injEq] at he
    obtain ⟨-, rfl⟩ := he
    exact (trimStart_suffix _).trans (readLifetime_advances hl).1
  · simp only [Except.ok.injEq, Prod.mk.injEq] at h
    exact h.2 ▸ List.suffix_rfl

theorem readMut_suffix (s : List Char) : (readMut s).2 <:+ s := by
  unfold readMut
  split
  · exact (trimStart_suffix _).trans (keyword?_after ‹_›)
  · exact List.suffix_rfl

theorem read_eq_ok_iff {s rest : List Char} {m : Modifiers} : read s = .ok (m, rest) ↔
    ∃ middle, readLifetime? (readAmpersand (trimStart s)).2 = .ok (m.lifetime, middle) ∧
      (readAmpersand (trimStart s)).1 = m.isReference ∧ readMut middle = (m.isMutable, rest) := by
  simp only [read, map_eq_ok_iff, Prod.exists, Prod.mk.injEq]
  constructor
  · rintro ⟨l, middle, hl, rfl, rfl⟩
    exact ⟨middle, hl, rfl, rfl⟩
  · rintro ⟨middle, hl, hr, hm⟩
    exact ⟨m.lifetime, middle, hl, by rw [hr, hm], by rw [hm]⟩

theorem read_keeps : Reader.Keeps read := by
  intro s m rest h
  obtain ⟨middle, hl, -, hm⟩ := read_eq_ok_iff.1 h
  have := readMut_suffix middle
  rw [hm] at this
  exact this.trans ((readLifetime?_keeps hl).trans
    ((readAmpersand_suffix _).trans (trimStart_suffix s)))

end Modifiers

theorem pathChars_append (s : List Char) : (pathChars s).1 ++ (pathChars s).2 = s := by
  fun_induction pathChars s <;> simp_all [Prod.map]

theorem readPlainPath_advances : Reader.Advances readPlainPath := by
  intro s path rest h
  unfold readPlainPath at h
  split at h
  · rename_i c s
    split at h
    · simp only [Except.ok.injEq, Prod.map, id_eq, Prod.mk.injEq] at h
      obtain ⟨-, rfl⟩ := h
      have hs : (pathChars s).2 <:+ s := ⟨_, pathChars_append s⟩
      exact ⟨hs.trans (List.suffix_cons _ _), Nat.lt_succ_of_le hs.length_le⟩
    · simp at h
  · simp at h

theorem readPath_advances : Reader.Advances readPath := by
  intro s path rest h
  have hr := readPlainPath_advances h
  have hs : (strip? "::".toList s).getD s <:+ s := by
    cases hp : strip? "::".toList s with
    | none => exact List.suffix_rfl
    | some t => exact strip?_suffix hp
  exact ⟨hr.1.trans hs, Nat.lt_of_lt_of_le hr.2 hs.length_le⟩

theorem mutability_keeps : Reader.Keeps mutability := by
  intro s m rest h
  unfold mutability at h
  split at h <;> simp only [Except.ok.injEq, Prod.mk.injEq, reduceCtorEq] at h <;>
    exact h.2 ▸ keyword?_after ‹_›

section Layer

variable {type : Reader TypeExpr} {more : Reader (List GenericArg)}

theorem GenericArg.readBoundWith_advances (ht : type.Advances) :
    (GenericArg.readBoundWith type).Advances := by
  intro s a rest h
  have hs := trimStart_suffix s
  unfold GenericArg.readBoundWith at h
  split at h
  · rename_i after he
    obtain ⟨⟨l, after⟩, hl, he'⟩ := map_eq_ok_iff.1 h
    obtain ⟨-, rfl⟩ := Prod.mk.inj he'
    have := readLifetime_advances hl
    rw [← he] at this
    exact ⟨this.1.trans hs, Nat.lt_of_lt_of_le this.2 hs.length_le⟩
  · obtain ⟨⟨t, after⟩, hl, he'⟩ := map_eq_ok_iff.1 h
    obtain ⟨-, rfl⟩ := Prod.mk.inj he'
    exact ⟨(ht hl).1.trans hs, Nat.lt_of_lt_of_le (ht hl).2 hs.length_le⟩

theorem GenericArg.readBoundsWith_advances (ht : type.Advances) (hm : more.Keeps) :
    (GenericArg.readBoundsWith type more).Advances := by
  intro s bs rest h
  obtain ⟨⟨b, middle⟩, hb, h⟩ := bind_eq_ok_iff.1 h
  obtain ⟨⟨bs, after⟩, hbs, h⟩ := bind_eq_ok_iff.1 h
  obtain ⟨-, rfl⟩ := Prod.mk.inj (Except.ok.inj h)
  have hb := GenericArg.readBoundWith_advances ht hb
  exact ⟨(hm hbs).trans hb.1, Nat.lt_of_le_of_lt (hm hbs).length_le hb.2⟩

theorem GenericArg.moreLevel_keeps (ht : type.Advances) (hm : more.Keeps) :
    (GenericArg.moreLevel type more).Keeps := by
  intro s bs rest h
  unfold GenericArg.moreLevel at h
  split at h
  · rename_i after he
    have := (GenericArg.readBoundsWith_advances ht hm h).1
    exact (this.trans (List.suffix_cons '+' after)).trans (he ▸ trimStart_suffix s)
  · obtain ⟨-, rfl⟩ := Prod.mk.inj (Except.ok.inj h)
    exact List.suffix_rfl

theorem TypeExpr.resultWith_keeps (ht : type.Advances) : (TypeExpr.resultWith type).Keeps := by
  intro s r rest h
  unfold TypeExpr.resultWith at h
  split at h
  · rename_i after he
    obtain ⟨⟨t, after'⟩, hl, he'⟩ := map_eq_ok_iff.1 h
    obtain ⟨-, rfl⟩ := Prod.mk.inj he'
    have : after <:+ s := ((List.suffix_cons '>' _).trans (List.suffix_cons '-' _)).trans
      (he ▸ trimStart_suffix s)
    exact (ht hl).1.trans this
  · obtain ⟨-, rfl⟩ := Prod.mk.inj (Except.ok.inj h)
    exact List.suffix_rfl

theorem TypeExpr.namedWith_keeps (ht : type.Advances) (name : String) :
    (TypeExpr.namedWith type name).Keeps := by
  intro s t rest h
  unfold TypeExpr.namedWith at h
  split at h
  · rename_i args he _
    obtain ⟨⟨inner, after⟩, hi, h⟩ := bind_eq_ok_iff.1 h
    obtain ⟨params, -, h⟩ := bind_eq_ok_iff.1 h
    obtain ⟨⟨result, rest'⟩, hr, h⟩ := bind_eq_ok_iff.1 h
    obtain ⟨-, rfl⟩ := Prod.mk.inj (Except.ok.inj h)
    have := (enclosed_after hi).1
    rw [← he] at this
    exact (TypeExpr.resultWith_keeps ht hr).trans (this.trans (trimStart_suffix s))
  · rename_i args _ he
    obtain ⟨⟨inner, after⟩, hi, h⟩ := bind_eq_ok_iff.1 h
    obtain ⟨generics, -, h⟩ := bind_eq_ok_iff.1 h
    obtain ⟨-, rfl⟩ := Prod.mk.inj (Except.ok.inj h)
    have := (enclosed_after hi).1
    rw [← he] at this
    exact this.trans (trimStart_suffix s)
  · obtain ⟨-, rfl⟩ := Prod.mk.inj (Except.ok.inj h)
    exact List.suffix_rfl

theorem TypeExpr.level_advances (ht : type.Advances) (hm : more.Keeps) :
    (TypeExpr.level type more).Advances := by
  intro s t rest h
  have hs := trimStart_suffix s
  suffices rest <:+ trimStart s ∧ rest.length < (trimStart s).length from
    ⟨this.1.trans hs, Nat.lt_of_lt_of_le this.2 hs.length_le⟩
  unfold TypeExpr.level at h
  split at h
  · rename_i after he
    rw [he]
    obtain ⟨⟨m, middle⟩, hm, h⟩ := bind_eq_ok_iff.1 h
    obtain ⟨⟨inner, after'⟩, hi, h⟩ := bind_eq_ok_iff.1 h
    obtain ⟨-, rfl⟩ := Prod.mk.inj (Except.ok.inj h)
    have hm := Modifiers.read_keeps hm
    exact ⟨(ht hi).1.trans hm, Nat.lt_of_lt_of_le (ht hi).2 hm.length_le⟩
  · rename_i after he
    rw [he]
    obtain ⟨⟨m, middle⟩, hm, h⟩ := bind_eq_ok_iff.1 h
    obtain ⟨⟨inner, after'⟩, hi, h⟩ := bind_eq_ok_iff.1 h
    obtain ⟨-, rfl⟩ := Prod.mk.inj (Except.ok.inj h)
    have hm := ((mutability_keeps hm).trans (trimStart_suffix after)).trans (List.suffix_cons '*' _)
    exact ⟨(ht hi).1.trans hm, Nat.lt_of_lt_of_le (ht hi).2 hm.length_le⟩
  · rename_i after he
    rw [he]
    obtain ⟨⟨inner, after'⟩, hi, h⟩ := bind_eq_ok_iff.1 h
    obtain ⟨elements, -, h⟩ := bind_eq_ok_iff.1 h
    obtain ⟨-, rfl⟩ := Prod.mk.inj (Except.ok.inj h)
    exact enclosed_after hi
  · rename_i after he
    rw [he]
    obtain ⟨⟨inner, after'⟩, hi, h⟩ := bind_eq_ok_iff.1 h
    obtain ⟨elements, -, h⟩ := bind_eq_ok_iff.1 h
    obtain ⟨-, rfl⟩ := Prod.mk.inj (Except.ok.inj h)
    exact enclosed_after hi
  · split at h
    · rename_i after hk
      obtain ⟨⟨bs, after'⟩, hb, he⟩ := map_eq_ok_iff.1 h
      obtain ⟨-, rfl⟩ := Prod.mk.inj he
      have := GenericArg.readBoundsWith_advances ht hm hb
      have hk := keyword?_after hk
      exact ⟨this.1.trans hk, Nat.lt_of_lt_of_le this.2 hk.length_le⟩
    · rename_i after _ hk
      obtain ⟨⟨bs, after'⟩, hb, he⟩ := map_eq_ok_iff.1 h
      obtain ⟨-, rfl⟩ := Prod.mk.inj he
      have := GenericArg.readBoundsWith_advances ht hm hb
      have hk := keyword?_after hk
      exact ⟨this.1.trans hk, Nat.lt_of_lt_of_le this.2 hk.length_le⟩
    · obtain ⟨⟨path, middle⟩, hp, h⟩ := bind_eq_ok_iff.1 h
      have hn := TypeExpr.namedWith_keeps ht _ h
      have hp := readPath_advances hp
      exact ⟨hn.trans hp.1, Nat.lt_of_le_of_lt hn.length_le hp.2⟩

end Layer

theorem TypeExpr.readWithin_advances (n : Nat) :
    (TypeExpr.readWithin n).Advances ∧ (GenericArg.moreWithin n).Keeps := by
  induction n with
  | zero =>
    constructor
    · intro s a rest h
      simp [TypeExpr.readWithin] at h
    · intro s a rest h
      obtain ⟨-, rfl⟩ := Prod.mk.inj (Except.ok.inj h)
      exact List.suffix_rfl
  | succ n ih => exact ⟨TypeExpr.level_advances ih.1 ih.2, GenericArg.moreLevel_keeps ih.1 ih.2⟩

theorem TypeExpr.read_advances : TypeExpr.read.Advances :=
  fun h => (TypeExpr.readWithin_advances _).1 h

end ApiSurface
