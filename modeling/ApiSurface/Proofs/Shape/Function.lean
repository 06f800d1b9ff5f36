import ApiSurface.Proofs.Shape.TypeExpr
import ApiSurface.Proofs.Source.Block

namespace ApiSurface

open Text TopLevel
open ApiSurface.Bracket (enclosed)

/-- What every parameter that is read is. -/
inductive Parameter.Regular : Parameter → Prop
  | receiver {m : Modifiers} (life : ∀ l ∈ m.lifetime, IsLifetime l.toList) :
      (Parameter.receiver m).Regular
  | typed {name : String} {type : TypeExpr} (word : isIdentifier name.toList = true)
      (regular : type.Regular) : (Parameter.typed name type).Regular

/-- What every signature that is read is. -/
structure Signature.Regular (s : Signature) : Prop where
  name : isIdentifier s.name.toList = true
  visibility : Lead.IsVisibility s.visibility
  qualifiers : ∀ q ∈ s.qualifiers, Lead.IsQualifier q
  generics : ∀ g ∈ s.generics, isIdentifier g.toList = true ∨ IsLifetime g.toList
  parameters : ∀ p ∈ s.parameters, p.Regular
  /-- Only the first parameter can be a receiver. -/
  receiver : ∀ p ∈ s.parameters.tail, p.isReceiver = false
  returnType : ∀ t ∈ s.returnType, t.Regular

section Trim

variable {b : Bracket} {s : List Char}

theorem Bracket.count_of_isBlankText (h : isBlankText s = true) :
    s.count b.opener = 0 ∧ s.count b.closer = 0 := by
  have hblank := List.all_eq_true.1 h
  constructor
  · refine List.count_eq_zero_of_not_mem fun hm => ?_
    exact Bool.false_ne_true (b.isBlank_opener.symm.trans (hblank _ hm))
  · refine List.count_eq_zero_of_not_mem fun hm => ?_
    exact Bool.false_ne_true (b.isBlank_closer.symm.trans (hblank _ hm))

/-- White space around a text opens and closes nothing. -/
theorem Bracket.IsBalanced.trim (h : b.IsBalanced s) : b.IsBalanced (Text.trim s) := by
  obtain ⟨front, back, hfront, hback, hs⟩ := exists_trim_append s
  obtain ⟨hfo, hfc⟩ := count_of_isBlankText (b := b) hfront
  obtain ⟨hbo, hbc⟩ := count_of_isBlankText (b := b) hback
  rw [hs] at h
  constructor
  · intro p hp
    have hp' : front ++ p <+: front ++ (Text.trim s ++ back) :=
      (List.prefix_append_right_inj front).2 (hp.trans (List.prefix_append _ _))
    have hcount := h.1 _ hp'
    rw [List.count_append, List.count_append, hfo, hfc] at hcount
    omega
  · have hcount := h.2
    simp only [List.count_append, hfo, hfc, hbo, hbc] at hcount
    omega

end Trim

namespace Lead

theorem readVisibility_yields (s : List Char) :
    Yields (fun p => IsVisibility p.1) (readVisibility s) := by
  unfold readVisibility
  split
  · exact .ok .hidden
  · split
    · rename_i scope _
      refine (enclosed_yields _).map fun ⟨inner, after⟩ hi _ => ?_
      exact .within (trim_trim inner) (Bracket.isBalanced_of_enclosed (b := .round) (by decide) hi).trim
    · exact .ok .exported

theorem readInterface_yields (s : List Char) :
    Yields (fun p => IsQualifier p.1) (readInterface s) := by
  unfold readInterface
  split
  · split
    · refine .ok (.interface fun hm => ?_)
      simpa using List.all_eq_true.1 List.all_takeWhile _ hm
    · exact .error rfl
  · exact .ok .foreign

theorem qualifier?_yields (s : List Char) :
    Yields (fun found => ∀ p ∈ found, IsQualifier p.1) (qualifier? s) := by
  unfold qualifier?
  split
  · rename_i found hf
    obtain ⟨word, hword, hk⟩ := List.exists_of_findSome?_eq_some hf
    obtain ⟨rest, -, rfl⟩ := Option.map_eq_some_iff.1 hk
    refine .ok fun p hp => ?_
    rw [← Option.some.inj hp]
    exact .plain hword
  · split
    · refine (readInterface_yields _).map fun p _ hp q hq => ?_
      rw [← Option.some.inj hq]
      exact hp
    · exact .ok (by simp)

theorem readQualifiers_yields (s : List Char) :
    Yields (fun p => ∀ q ∈ p.1, IsQualifier q) (readQualifiers s) := by
  fun_induction readQualifiers s with
  | case1 s fault hq => exact .error ((qualifier?_yields _).of_error hq)
  | case2 => exact .ok (by simp)
  | case3 s word rest hq ih =>
    have hword : IsQualifier word := (qualifier?_yields _).of_ok hq _ rfl
    exact ih.map fun p _ hp => List.forall_mem_cons.2 ⟨hword, hp⟩

theorem read_yields (s : List Char) : Yields
    (fun p => IsVisibility p.1.visibility ∧ ∀ q ∈ p.1.qualifiers, IsQualifier q) (read s) := by
  refine (readVisibility_yields s).bind fun ⟨v, rest⟩ _ hv => ?_
  refine (readQualifiers_yields rest).bind fun ⟨words, after⟩ _ hq => ?_
  exact .ok ⟨hv, hq⟩

end Lead

namespace Parameter

theorem receiver?_yields (first : List Char) :
    Yields (fun found => ∀ m ∈ found, (receiver m).Regular) (receiver? first) := by
  unfold receiver?
  split
  · exact .ok (by simp)
  · rename_i m rest hm
    have hreg : ∀ m' ∈ some m, (receiver m').Regular := by
      intro m' h
      rw [← Option.some.inj h]
      exact .receiver ((Modifiers.read_yields first).of_ok hm)
    split
    · exact .ok (by simp)
    · split
      · exact .ok hreg
      · exact (TypeExpr.ofText_yields _).map fun _ _ _ => hreg
      · exact .error rfl

theorem readName_yields (s : List Char) :
    Yields (fun p => isIdentifier p.1 = true) (readName s) := by
  unfold readName
  dsimp only
  generalize (keyword? Modifiers.mutWord s).elim s trimStart = t
  cases hr : readIdentifier t with
  | error fault => exact .error rfl
  | ok p => exact .ok ((readIdentifier_yields t).of_ok hr)

theorem afterColon_yields (name : String) (s : List Char) :
    Yields (fun _ => True) (afterColon name s) := by
  unfold afterColon
  split
  · exact .error rfl
  · exact .ok trivial
  · exact .error rfl

theorem readTyped_yields (s : List Char) :
    Yields (fun p => p.1.Regular ∧ p.1.isReceiver = false) (readTyped s) := by
  refine (readName_yields s).bind fun ⟨name, rest⟩ _ hname => ?_
  refine (afterColon_yields _ _).bind fun rest _ _ => ?_
  refine (TypeExpr.read_yields rest).bind fun ⟨type, after⟩ _ htype => ?_
  exact .ok ⟨.typed (by rwa [String.toList_ofList]) htype.regular, rfl⟩

theorem readTypedAll_yields (s : List Char) :
    Yields (fun ps => ∀ p ∈ ps, p.Regular ∧ p.isReceiver = false) (readTypedAll s) := by
  fun_induction readTypedAll s with
  | case1 => exact .ok (by simp)
  | case2 s _ fault hr => exact .error ((readTyped_yields _).of_error hr)
  | case3 s _ p rest hr =>
    have hp := (readTyped_yields _).of_ok hr
    exact .ok (List.forall_mem_cons.2 ⟨hp, by simp⟩)
  | case4 s _ p rest hr rest' _ ih =>
    have hp := (readTyped_yields _).of_ok hr
    exact ih.map fun ps _ hps => List.forall_mem_cons.2 ⟨hp, hps⟩
  | case5 => exact .error rfl

/-- A receiver is looked for in front of the first comma only. -/
theorem ofText_yields (s : List Char) :
    Yields (fun ps => (∀ p ∈ ps, p.Regular) ∧ ∀ p ∈ ps.tail, p.isReceiver = false) (ofText s) := by
  refine (receiver?_yields _).bind fun found _ hm => ?_
  cases found with
  | none =>
    refine (readTypedAll_yields s).mono fun ps hps => ?_
    exact ⟨fun p hp => (hps p hp).1, fun p hp => (hps p (List.mem_of_mem_tail hp)).2⟩
  | some m =>
    refine (readTypedAll_yields _).bind fun ps _ hps => .ok ?_
    exact ⟨List.forall_mem_cons.2 ⟨hm m rfl, fun p hp => (hps p hp).1⟩, fun p hp => (hps p hp).2⟩

end Parameter

theorem afterKeyword_yields (kw s : List Char) : Yields (fun _ => True) (afterKeyword kw s) := by
  unfold afterKeyword
  split
  · exact .ok trivial
  · exact .error rfl

namespace FunctionItem

theorem genericName_yields (piece : List Char) :
    Yields (fun g => isIdentifier g.toList = true ∨ IsLifetime g.toList) (genericName piece) := by
  unfold genericName
  split
  · exact (readLifetime_yields _).map fun p _ hp => .inr (by rwa [String.toList_ofList])
  · exact (readIdentifier_yields _).map fun p _ hp => .inl (by rwa [String.toList_ofList])

theorem readGenerics_yields (s : List Char) :
    Yields (fun p => ∀ g ∈ p.1, isIdentifier g.toList = true ∨ IsLifetime g.toList)
      (readGenerics s) := by
  unfold readGenerics
  split
  · refine (enclosed_yields _).bind fun ⟨inner, after⟩ _ _ => ?_
    exact (Yields.mapM fun piece _ => genericName_yields piece).bind fun names _ hn => .ok hn
  · exact .ok (by simp)

theorem readParameters_yields (name : String) (s : List Char) :
    Yields (fun p => (∀ q ∈ p.1, q.Regular) ∧ ∀ q ∈ p.1.tail, q.isReceiver = false)
      (readParameters name s) := by
  unfold readParameters
  split
  · refine (enclosed_yields _).bind fun ⟨inner, after⟩ _ _ => ?_
    exact (Parameter.ofText_yields inner).bind fun ps _ hps => .ok hps
  · exact .error rfl

theorem readReturnType_yields (s : List Char) :
    Yields (fun p => ∀ t ∈ p.1, t.Regular) (readReturnType s) := by
  unfold readReturnType
  split
  · refine (TypeExpr.ofText_yields _).map fun t _ ht u hu => ?_
    exact Option.some.inj hu ▸ ht
  · exact .ok (by simp)

theorem readBody_yields (name : String) (s : List Char) :
    Yields (fun _ => True) (readBody name s) := by
  unfold readBody
  split
  · exact (enclosed_yields _).map fun _ _ _ => trivial
  · exact .error rfl

theorem read_yields (s : List Char) : Yields (fun p => p.1.signature.Regular) (read s) := by
  refine (Lead.read_yields s).bind fun ⟨lead, _⟩ _ hlead => ?_
  refine (afterKeyword_yields _ _).bind fun rest _ _ => ?_
  refine (readIdentifier_yields _).bind fun ⟨name, _⟩ _ hname => ?_
  refine (readGenerics_yields _).bind fun ⟨generics, rest⟩ _ hgenerics => ?_
  refine (readParameters_yields _ rest).bind fun ⟨parameters, rest⟩ _ hparams => ?_
  refine (readReturnType_yields rest).bind fun ⟨returnType, rest⟩ _ hret => ?_
  refine (readBody_yields _ _).bind fun ⟨body, rest⟩ _ _ => .ok ?_
  exact ⟨by rwa [String.toList_ofList], hlead.1, hlead.2, hgenerics, hparams.1, hparams.2, hret⟩

end FunctionItem

section Owner

theorem IsWordPath.lastSegment {path : List Char} (h : IsWordPath path) :
    isIdentifier (Signature.lastSegment path) = true := by
  obtain ⟨first, more, hf, hm, rfl⟩ := h
  have hall : ∀ word ∈ first :: more, isIdentifier word = true := List.forall_mem_cons.2 ⟨hf, hm⟩
  rw [Signature.lastSegment_segments hf hm]
  exact hall _ (List.getLast_mem _)

/-- A name of an owner is read off the path of a named type, also behind references. -/
theorem TypeExpr.Regular.ownerName {t : TypeExpr} (ht : t.Regular) :
    ∀ owner ∈ t.ownerName?, isIdentifier owner.toList = true := by
  intro owner h
  induction t using TypeExpr.ownerName?.induct with
  | case1 path generics =>
    cases ht with
    | named hpath =>
      rw [← Option.some.inj h, String.toList_ofList]
      exact hpath.lastSegment
  | case2 isMutable lifetime inner ih =>
    cases ht with
    | reference _ hinner => exact ih hinner h
  | case3 t hnamed hreference =>
    rw [TypeExpr.ownerName?] at h
    · cases h
    · exact hnamed
    · exact hreference

namespace Target

theorem ownerOfText_yields (s : List Char) :
    Yields (fun owner => isIdentifier owner.toList = true) (ownerOfText s) := by
  refine (TypeExpr.ofText_yields s).bind fun t _ ht => ?_
  cases ho : t.ownerName? with
  | none => exact .error rfl
  | some owner => exact .ok (ht.ownerName owner ho)

theorem afterGenerics_yields (s : List Char) : Yields (fun _ => True) (afterGenerics s) := by
  unfold afterGenerics
  split
  · exact (enclosed_yields _).map fun _ _ _ => trivial
  · exact .ok trivial

theorem read_yields (s : List Char) :
    Yields (fun p => isIdentifier p.1.toList = true) (read s) := by
  refine (Lead.read_yields s).bind fun ⟨lead, _⟩ _ _ => ?_
  refine (afterKeyword_yields _ _).bind fun rest _ _ => ?_
  refine (afterGenerics_yields _).bind fun rest _ _ => ?_
  dsimp only
  split
  · exact (ownerOfText_yields _).bind fun owner _ ho => .ok ho
  · exact .error rfl

end Target

end Owner

end ApiSurface
