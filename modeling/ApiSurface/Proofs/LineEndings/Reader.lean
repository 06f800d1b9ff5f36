import ApiSurface.Proofs.LineEndings.TypeExpr
import ApiSurface.Proofs.TypeExpr.Edges
import ApiSurface.Proofs.TypeExpr.Level

namespace ApiSurface

open Text TopLevel

section Words

variable {n : Nat} {s s' : List Char}

theorem readIdentifier_agree : Reader.Agree n SameWord readIdentifier readIdentifier := by
  intro s s' h
  have hw := h.word?
  unfold readIdentifier
  generalize word? s = found, word? s' = found' at hw ⊢
  cases hw with
  | none => exact .error (.noIdentifier h)
  | some hw => exact .ok ⟨⟨hw.1, hw.2.1⟩, hw.2.2.mono (Nat.sub_le _ _)⟩

theorem readLifetime_agree : Reader.Agree n SameWord readLifetime readLifetime := by
  intro s s' h
  unfold readLifetime
  split
  · obtain ⟨rest', rfl, more⟩ := h.cons_left (by decide)
    refine (readIdentifier_agree _ _ more).map_pair ?_
    rintro word _ rest rest' ⟨rfl, hw⟩ hrest
    exact ⟨⟨rfl, hw.cons (by decide) (by decide)⟩, hrest.mono (Nat.sub_le n 1)⟩
  · split
    · exact (h.false_of_cons (by decide) ‹_›).elim
    · exact .error (.noIdentifier h)

theorem Modifiers.readAmpersand_agree (h : SameLines n s s') :
    (readAmpersand s).1 = (readAmpersand s').1 ∧
      SameLines n (readAmpersand s).2 (readAmpersand s').2 := by
  unfold readAmpersand
  split
  · obtain ⟨rest', rfl, more⟩ := h.cons_left (by decide)
    exact ⟨rfl, more.trimStart.mono (Nat.sub_le n 1)⟩
  · split
    · exact (h.false_of_cons (by decide) ‹_›).elim
    · exact ⟨rfl, h⟩

/-- A lifetime that was read is the same for both texts. -/
def SameLifetime (lifetime lifetime' : Option String) : Prop :=
  lifetime' = lifetime ∧ ∀ l ∈ lifetime, '\n' ∉ l.toList

theorem Modifiers.readLifetime?_agree :
    Reader.Agree n SameLifetime readLifetime? readLifetime? := by
  intro s s' h
  unfold readLifetime?
  split
  · obtain ⟨rest', rfl, more⟩ := h.cons_left (by decide)
    refine (readLifetime_agree _ _ h).map_pair ?_
    rintro l _ rest rest' ⟨rfl, hl⟩ hrest
    refine ⟨⟨rfl, ?_⟩, hrest.trimStart⟩
    rintro _ ⟨⟩
    rw [String.toList_ofList]
    exact hl.not_mem
  · split
    · exact (h.false_of_cons (by decide) ‹_›).elim
    · exact .ok ⟨⟨rfl, by simp⟩, h⟩

theorem Modifiers.readMut_agree (h : SameLines n s s') :
    (readMut s).1 = (readMut s').1 ∧ SameLines n (readMut s).2 (readMut s').2 := by
  have hk := h.keyword? mutWord (by decide)
  unfold readMut
  generalize keyword? mutWord s = found, keyword? mutWord s' = found' at hk ⊢
  cases hk with
  | none => exact ⟨rfl, h⟩
  | some hk => exact ⟨rfl, hk.trimStart.mono (Nat.sub_le _ _)⟩

/-- The same modifiers, their lifetime on one line. -/
def SameModifiers (m m' : Modifiers) : Prop := m' = m ∧ ∀ l ∈ m.lifetime, '\n' ∉ l.toList

theorem Modifiers.afterAmpersand_agree (isReference : Bool) (h : SameLines n s s') :
    Agree (fun p p' => SameModifiers p.1 p'.1 ∧ SameLines n p.2 p'.2)
      ((readLifetime? s).map fun (l, rest) =>
        (Modifiers.mk isReference l (readMut rest).1, (readMut rest).2))
      ((readLifetime? s').map fun (l, rest) =>
        (Modifiers.mk isReference l (readMut rest).1, (readMut rest).2)) := by
  refine (readLifetime?_agree _ _ h).map_pair ?_
  rintro l _ rest rest' ⟨rfl, hl⟩ hrest
  obtain ⟨hmut, hrest⟩ := readMut_agree hrest
  exact ⟨⟨by dsimp only; rw [hmut], hl⟩, hrest⟩

theorem Modifiers.read_agree : Reader.Agree n SameModifiers read read := by
  intro s s' h
  obtain ⟨hstart, hrest⟩ := readAmpersand_agree h.trimStart
  simp only [read, hstart]
  exact afterAmpersand_agree _ hrest

theorem pathChars_agree (h : SameLines n s s') :
    SameWord (pathChars s).1 (pathChars s').1 ∧ SameLines n (pathChars s).2 (pathChars s').2 := by
  induction s using pathChars.induct generalizing n s' with
  | case1 c rest hc ih =>
    have hn : c ≠ '\n' := ne_of_isWordChar (isWordChar_of_isWordStart hc) rfl
    have hr : c ≠ '\r' := ne_of_isWordChar (isWordChar_of_isWordStart hc) rfl
    obtain ⟨s₁, rfl, h₁⟩ := h.cons_left (by decide)
    obtain ⟨s₂, rfl, h₂⟩ := h₁.cons_left (by decide)
    obtain ⟨s₃, rfl, h₃⟩ := h₂.cons_left hn
    obtain ⟨⟨hw, hu⟩, hrest⟩ := ih h₃
    simp only [pathChars, if_pos hc, Prod.map, id]
    refine ⟨⟨by rw [hw], ?_⟩, hrest.mono (by omega)⟩
    exact ((hu.cons hn hr).cons (by decide) (by decide)).cons (by decide) (by decide)
  | case2 c rest hc =>
    obtain ⟨s₁, rfl, h₁⟩ := h.cons_left (by decide)
    obtain ⟨s₂, rfl, h₂⟩ := h₁.cons_left (by decide)
    have hs : pathChars (':' :: ':' :: s₂) = ([], ':' :: ':' :: s₂) := by
      generalize n - 1 - 1 = m at h₂
      cases h₂ with
      | feed => rfl
      | char => simp only [pathChars, if_neg hc]
    rw [hs, pathChars, if_neg hc]
    exact ⟨⟨rfl, isUnbroken_nil⟩, h⟩
  | case3 c rest hcolon hc ih =>
    have hn : c ≠ '\n' := ne_of_isWordChar hc rfl
    have hr : c ≠ '\r' := ne_of_isWordChar hc rfl
    obtain ⟨s₁, rfl, h₁⟩ := h.cons_left hn
    obtain ⟨⟨hw, hu⟩, hrest⟩ := ih h₁
    have hpath (t : List Char) : pathChars (c :: t) = (pathChars t).map (c :: ·) id :=
      pathChars_word_append (s := [c]) (by simpa using hc) t
    rw [hpath, hpath]
    exact ⟨⟨congrArg (c :: ·) hw, hu.cons hn hr⟩, hrest.mono (Nat.sub_le n 1)⟩
  | case4 c rest hcolon hc =>
    have hs : pathChars s' = ([], s') := by
      cases h with
      | feed => rfl
      | @char n _ _ s₁ hn hr more =>
        rw [pathChars, if_neg hc]
        rintro d t rfl rfl
        obtain ⟨s₂, rfl, h₂⟩ := more.cons_right (by decide)
        cases s₂ with
        | nil => exact absurd (h₂.eq_nil_iff.2 rfl) (List.cons_ne_nil d t)
        | cons e s₃ => exact hcolon e s₃ rfl rfl
    rw [hs, pathChars, if_neg hc]
    · exact ⟨⟨rfl, isUnbroken_nil⟩, h⟩
    · exact hcolon
  | case5 =>
    cases h
    exact ⟨⟨rfl, isUnbroken_nil⟩, .nil⟩

theorem readPlainPath_agree (h : SameLines n s s') :
    Agree (fun p p' => SameWord p.1 p'.1 ∧ SameLines (n - 1) p.2 p'.2) (readPlainPath s)
      (readPlainPath s') := by
  cases h with
  | nil => exact .error (.noIdentifier (n := n) .nil)
  | char hn hr more =>
    obtain ⟨⟨hw, hu⟩, hrest⟩ := pathChars_agree more
    simp only [readPlainPath]
    split
    · exact .ok ⟨⟨congrArg (_ :: ·) hw, hu.cons hn hr⟩, hrest⟩
    · exact .error (.noIdentifier (.char hn hr more))
  | feed more => exact .error (.noIdentifier (.feed more))

theorem readPath_agree (h : SameLines n s s') :
    Agree (fun p p' => SameWord p.1 p'.1 ∧ SameLines (n - 1) p.2 p'.2) (readPath s)
      (readPath s') := by
  have hs := h.strip? "::".toList (by decide)
  have hpath : SameLines n ((strip? "::".toList s).getD s) ((strip? "::".toList s').getD s') := by
    generalize strip? "::".toList s = found, strip? "::".toList s' = found' at hs ⊢
    cases hs with
    | none => exact h
    | some hs => exact hs.mono (Nat.sub_le _ _)
  exact readPlainPath_agree hpath

theorem mutability_agree : Reader.Agree n Eq mutability mutability := by
  intro s s' h
  have hm := h.keyword? "mut".toList (by decide)
  have hc := h.keyword? "const".toList (by decide)
  unfold mutability
  generalize keyword? "mut".toList s = found, keyword? "mut".toList s' = found' at hm ⊢
  generalize keyword? "const".toList s = other, keyword? "const".toList s' = other' at hc ⊢
  cases hm with
  | some hm => exact .ok ⟨rfl, hm.mono (Nat.sub_le _ _)⟩
  | none =>
    cases hc with
    | some hc => exact .ok ⟨rfl, hc.mono (Nat.sub_le _ _)⟩
    | none => exact .error (.malformedSignature (crlfString_eq_self (by decide)).symm)

end Words

section Layer

theorem isEmpty_ofList (s : List Char) : (String.ofList s).isEmpty = s.isEmpty := by
  rw [Bool.eq_iff_iff, String.isEmpty_iff, String.ofList_eq_empty_iff, List.isEmpty_iff]

variable {n : Nat} {s s' : List Char}
variable {type type' : Reader TypeExpr} {more more' : Reader (List GenericArg)}

/-- What is found is the same, and so is a message about what stands behind it. -/
theorem Reader.whole_agree {α : Type} [ToString α] {R : α → α → Prop} {read read' : Reader α}
    (hread : Reader.Agree n R read read')
    (hR : ∀ a a', R a a' → toString a' = crlfString (toString a)) (kind : String)
    (hkind : '\n' ∉ kind.toList) (h : Text.SameLines n s s') :
    ApiSurface.Agree R (Reader.whole kind read s) (Reader.whole kind read' s') := by
  refine (hread _ _ h).bind_pair ?_
  intro a a' rest rest' ha hrest
  have htrim := hrest.trim
  simp only [isEmpty_ofList, htrim.isEmpty_eq]
  split
  · exact .ok ha
  · refine .error (.malformedSignature ?_)
    rw [hR a a' ha]
    generalize toString a = found
    simp (disch := decide) only [toString, htrim.eq_crlf, crlfString_append, crlfString_eq_self hkind,
      crlfString_eq_self, crlfString_ofList]

theorem TypeExpr.SameLines.toString_eq {t t' : TypeExpr} (h : t.SameLines t') :
    toString t' = crlfString (toString t) := by
  simp only [toString, h.chars, crlfString_ofList]

theorem GenericArg.SameLines.toString_eq {a a' : GenericArg} (h : a.SameLines a') :
    toString a' = crlfString (toString a) := by
  simp only [toString, h.chars, crlfString_ofList]

theorem TypeExpr.wholeWith_agree (ht : Reader.Agree n TypeExpr.SameLines type type')
    (h : Text.SameLines n s s') :
    Agree TypeExpr.SameLines (TypeExpr.wholeWith type s) (TypeExpr.wholeWith type' s') :=
  Reader.whole_agree ht (fun _ _ ht => ht.toString_eq) "type" (by decide) h

theorem GenericArg.readWith_agree (ht : Reader.Agree n TypeExpr.SameLines type type') :
    Reader.Agree n GenericArg.SameLines (GenericArg.readWith type) (GenericArg.readWith type') := by
  intro s s' h
  have hstart := h.trimStart
  obtain ⟨t, t', hs, hs', -⟩ | ⟨hs, hs'⟩ := hstart.head_cases (c := '\'') (by decide) (by decide)
  · rw [hs, hs'] at hstart
    rw [GenericArg.readWith, GenericArg.readWith, hs, hs']
    refine (readLifetime_agree _ _ hstart).map_pair ?_
    rintro l _ rest rest' ⟨rfl, hl⟩ hrest
    exact ⟨.lifetime (by simpa using hl.not_mem), hrest⟩
  · rw [GenericArg.readWith_of_plain hs, GenericArg.readWith_of_plain hs']
    have htype : Agree (fun p p' => GenericArg.SameLines p.1 p'.1 ∧ Text.SameLines n p.2 p'.2)
        ((type (trimStart s)).map (Prod.map .type id))
        ((type' (trimStart s')).map (Prod.map .type id)) :=
      (ht _ _ hstart).map_pair fun _ _ _ _ ht hrest => ⟨.type ht, hrest⟩
    have hw := hstart.word?
    generalize word? (trimStart s) = found, word? (trimStart s') = found' at hw ⊢
    cases hw with
    | none => exact htype
    | @some p p' hw =>
      obtain ⟨word, rest⟩ := p
      obtain ⟨word', rest'⟩ := p'
      obtain ⟨hname, hu, hrest⟩ := hw
      obtain rfl : word' = word := hname
      have hrest := hrest.trimStart
      simp only [Option.map_some, Prod.map, id] at hu hrest ⊢
      have hbind {t t' : List Char} (h : Text.SameLines (n - 1 - 1) t t') : Agree
          (fun p p' => GenericArg.SameLines p.1 p'.1 ∧ Text.SameLines n p.2 p'.2)
          ((type t).map (Prod.map (.binding (String.ofList word')) id))
          ((type' t').map (Prod.map (.binding (String.ofList word')) id)) :=
        (ht _ _ (h.mono (by omega))).map_pair fun _ _ _ _ ht hrest =>
          ⟨.binding (by simpa using hu.not_mem) ht, hrest⟩
      generalize trimStart rest = v, trimStart rest' = v' at hrest ⊢
      obtain ⟨t, t', rfl, rfl, ht⟩ | ⟨hv, hv'⟩ := hrest.head_cases (c := '=') (by decide) (by decide)
      · obtain ⟨t, t', rfl, rfl, -⟩ | ⟨ht, ht'⟩ := ht.head_cases (c := '=') (by decide) (by decide)
        · exact htype
        · simp only
          exact hbind ‹_›
      · split
        · exact (hv _ (Prod.mk.inj (Option.some.inj ‹_›)).2).elim
        · exact (hv _ (Prod.mk.inj (Option.some.inj ‹_›)).2).elim
        · split
          · exact (hv' _ (Prod.mk.inj (Option.some.inj ‹_›)).2).elim
          · exact (hv' _ (Prod.mk.inj (Option.some.inj ‹_›)).2).elim
          · exact htype

theorem GenericArg.wholeWith_agree (ht : Reader.Agree n TypeExpr.SameLines type type')
    (h : Text.SameLines n s s') :
    Agree GenericArg.SameLines (GenericArg.wholeWith type s) (GenericArg.wholeWith type' s') :=
  Reader.whole_agree (GenericArg.readWith_agree ht) (fun _ _ ha => ha.toString_eq) "generic argument"
    (by decide) h

theorem GenericArg.readBoundWith_agree (ht : Reader.Agree n TypeExpr.SameLines type type') :
    Reader.Agree n GenericArg.SameLines (GenericArg.readBoundWith type)
      (GenericArg.readBoundWith type') := by
  intro s s' h
  have hstart := h.trimStart
  unfold GenericArg.readBoundWith
  generalize trimStart s = u, trimStart s' = u' at hstart ⊢
  obtain ⟨t, t', rfl, rfl, -⟩ | ⟨hs, hs'⟩ := hstart.head_cases (c := '\'') (by decide) (by decide)
  · refine (readLifetime_agree _ _ hstart).map_pair ?_
    rintro l _ rest rest' ⟨rfl, hl⟩ hrest
    exact ⟨.lifetime (by simpa using hl.not_mem), hrest⟩
  · simp only
    exact (ht _ _ hstart).map_pair fun _ _ _ _ ht hrest => ⟨.type ht, hrest⟩

theorem GenericArg.readBoundsWith_agree (ht : Reader.Agree n TypeExpr.SameLines type type')
    (hm : Reader.Agree n (List.Forall₂ GenericArg.SameLines) more more') :
    Reader.Agree n (List.Forall₂ GenericArg.SameLines) (GenericArg.readBoundsWith type more)
      (GenericArg.readBoundsWith type' more') := by
  intro s s' h
  refine (GenericArg.readBoundWith_agree ht _ _ h).bind_pair ?_
  intro a a' rest rest' ha hrest
  refine (hm _ _ hrest).bind_pair ?_
  intro as as' rest rest' has hrest
  exact .ok ⟨.cons ha has, hrest⟩

theorem GenericArg.moreLevel_agree (ht : Reader.Agree n TypeExpr.SameLines type type')
    (hm : Reader.Agree n (List.Forall₂ GenericArg.SameLines) more more') :
    Reader.Agree (n + 1) (List.Forall₂ GenericArg.SameLines) (GenericArg.moreLevel type more)
      (GenericArg.moreLevel type' more') := by
  intro s s' h
  have hstart := h.trimStart
  unfold GenericArg.moreLevel
  generalize trimStart s = u, trimStart s' = u' at hstart ⊢
  obtain ⟨t, t', rfl, rfl, hrest⟩ | ⟨hs, hs'⟩ := hstart.head_cases (c := '+') (by decide) (by decide)
  · exact (GenericArg.readBoundsWith_agree ht hm _ _ hrest).mono fun _ _ hp =>
      ⟨hp.1, hp.2.mono (Nat.le_succ n)⟩
  · simp only
    exact .ok ⟨.nil, h⟩

theorem TypeExpr.resultWith_agree (ht : Reader.Agree n TypeExpr.SameLines type type') :
    Reader.Agree n (Option.Rel TypeExpr.SameLines) (TypeExpr.resultWith type)
      (TypeExpr.resultWith type') := by
  intro s s' h
  have hstart := h.trimStart
  unfold TypeExpr.resultWith
  generalize trimStart s = u, trimStart s' = u' at hstart ⊢
  split
  · obtain ⟨t, rfl, h₁⟩ := hstart.cons_left (by decide)
    obtain ⟨t, rfl, h₂⟩ := h₁.cons_left (by decide)
    exact (ht _ _ (h₂.mono (by omega))).map_pair fun _ _ _ _ ht hrest => ⟨.some ht, hrest⟩
  · rename_i hs
    split
    · obtain ⟨t, rfl, h₁⟩ := hstart.cons_right (by decide)
      obtain ⟨t, rfl, h₂⟩ := h₁.cons_right (by decide)
      exact (hs _ rfl).elim
    · exact .ok ⟨.none, h⟩

theorem TypeExpr.squareWith_agree (ht : Reader.Agree n TypeExpr.SameLines type type')
    (h : Text.SameLines n s s') :
    Agree TypeExpr.SameLines (TypeExpr.squareWith type s) (TypeExpr.squareWith type' s') := by
  obtain ⟨hfirst, hmore⟩ := h.splitOnce ';' (by decide) (by decide)
  unfold TypeExpr.squareWith
  generalize splitOnce ';' s = p, splitOnce ';' s' = p' at hfirst hmore ⊢
  obtain ⟨element, length⟩ := p
  obtain ⟨element', length'⟩ := p'
  cases hmore with
  | none => exact (TypeExpr.wholeWith_agree ht hfirst).bind fun _ _ ht => .ok (.slice ht)
  | some hl =>
    refine (TypeExpr.wholeWith_agree ht hfirst).bind fun _ _ ht => ?_
    rw [hl.trim.eq_crlf]
    exact .ok (.array ht _)

theorem TypeExpr.namedWith_agree (ht : Reader.Agree n TypeExpr.SameLines type type') {name : String}
    (hn : '\n' ∉ name.toList) :
    Reader.Agree n TypeExpr.SameLines (TypeExpr.namedWith type name)
      (TypeExpr.namedWith type' name) := by
  intro s s' h
  have hstart := h.trimStart
  unfold TypeExpr.namedWith
  generalize trimStart s = u, trimStart s' = u' at hstart ⊢
  have hplain : Agree (fun p p' => TypeExpr.SameLines p.1 p'.1 ∧ Text.SameLines n p.2 p'.2)
      (.ok (TypeExpr.named name [], s)) (.ok (TypeExpr.named name [], s')) :=
    .ok ⟨.named hn .nil, h⟩
  obtain ⟨t, t', rfl, rfl, hrest⟩ | ⟨hs, hs'⟩ := hstart.head_cases (c := '(') (by decide) (by decide)
  · cases hc : callableKinds.contains name with
    | false => exact hplain
    | true =>
      refine (hrest.enclosed .round).bind_pair ?_
      intro inner inner' rest rest' hinner hrest
      have hinner := hinner.mono (Nat.sub_le n 1)
      refine (hinner.mapM_split fun _ _ h => TypeExpr.wholeWith_agree ht h).bind ?_
      intro params params' hparams
      refine (TypeExpr.resultWith_agree ht _ _ (hrest.mono (Nat.sub_le n 1))).bind_pair ?_
      intro result result' rest rest' hresult hrest
      exact .ok ⟨.fnTrait hn hparams hresult, hrest⟩
  · split
    · exact (hs _ rfl).elim
    · obtain ⟨t, rfl, hrest⟩ := hstart.cons_left (by decide)
      refine (hrest.enclosed .angle).bind_pair ?_
      intro inner inner' rest rest' hinner hrest
      have hinner := hinner.mono (Nat.sub_le n 1)
      refine (hinner.mapM_split fun _ _ h => GenericArg.wholeWith_agree ht h).bind ?_
      intro args args' hargs
      exact .ok ⟨.named hn hargs, hrest.mono (Nat.sub_le n 1)⟩
    · split
      · exact (hs' _ rfl).elim
      · exact (hstart.false_of_cons (by decide) ‹_›).elim
      · exact hplain

theorem TypeExpr.wordLevel_agree (ht : Reader.Agree n TypeExpr.SameLines type type')
    (hm : Reader.Agree n (List.Forall₂ GenericArg.SameLines) more more') :
    Reader.Agree (n + 1) TypeExpr.SameLines (TypeExpr.wordLevel type more)
      (TypeExpr.wordLevel type' more') := by
  intro s s' h
  have hbounds {t t' : List Char} (h : Text.SameLines n t t') :=
    GenericArg.readBoundsWith_agree ht hm _ _ h
  have hi := h.keyword? "impl".toList (by decide)
  have hd := h.keyword? "dyn".toList (by decide)
  unfold TypeExpr.wordLevel
  generalize keyword? "impl".toList s = found, keyword? "impl".toList s' = found' at hi ⊢
  generalize keyword? "dyn".toList s = other, keyword? "dyn".toList s' = other' at hd ⊢
  cases hi with
  | some hi =>
    refine (hbounds (hi.mono (show n + 1 - 4 ≤ n by omega))).map_pair ?_
    intro bounds bounds' rest rest' hb hrest
    exact ⟨.bounded .impl hb, hrest.mono (Nat.le_succ n)⟩
  | none =>
    cases hd with
    | some hd =>
      refine (hbounds (hd.mono (show n + 1 - 3 ≤ n by omega))).map_pair ?_
      intro bounds bounds' rest rest' hb hrest
      exact ⟨.bounded .dyn hb, hrest.mono (Nat.le_succ n)⟩
    | none =>
      refine (readPath_agree h).bind_pair ?_
      rintro _ path rest rest' ⟨rfl, hu⟩ hrest
      have hpath : '\n' ∉ (String.ofList path).toList := by simpa using hu.not_mem
      have hname := TypeExpr.namedWith_agree ht hpath _ _ hrest
      exact hname.mono fun _ _ hp => ⟨hp.1, hp.2.mono (Nat.le_succ n)⟩

/-- One layer is read alike if the types and bounds inside are, up to a length one less. -/
theorem TypeExpr.level_agree (ht : Reader.Agree n TypeExpr.SameLines type type')
    (hm : Reader.Agree n (List.Forall₂ GenericArg.SameLines) more more') :
    Reader.Agree (n + 1) TypeExpr.SameLines (TypeExpr.level type more)
      (TypeExpr.level type' more') := by
  intro s s' h
  have hstart := h.trimStart
  by_cases hword : ∀ c ∈ (trimStart s).head?, c ∉ ['&', '*', '(', '[']
  · have hword' := hstart.head?_not_mem (by decide) hword
    rw [level_of_word hword, level_of_word hword']
    exact wordLevel_agree ht hm _ _ hstart
  unfold TypeExpr.level
  generalize trimStart s = u, trimStart s' = u' at hstart hword ⊢
  split
  · obtain ⟨t, rfl, hrest⟩ := hstart.cons_left (by decide)
    have hread := Modifiers.afterAmpersand_agree true hrest.trimStart
    refine Alike.bind_pair hread ?_
    rintro _ m rest rest' ⟨rfl, hl⟩ hrest
    refine (ht _ _ hrest).bind_pair ?_
    intro t t' rest rest' ht hrest
    exact .ok ⟨.reference hl m.isMutable ht, hrest.mono (Nat.le_succ n)⟩
  · obtain ⟨t, rfl, hrest⟩ := hstart.cons_left (by decide)
    refine (mutability_agree _ _ hrest.trimStart).bind_pair ?_
    rintro m _ rest rest' rfl hrest
    refine (ht _ _ hrest).bind_pair ?_
    intro t t' rest rest' ht hrest
    exact .ok ⟨.pointer m ht, hrest.mono (Nat.le_succ n)⟩
  · obtain ⟨t, rfl, hrest⟩ := hstart.cons_left (by decide)
    refine (hrest.enclosed .round).bind_pair ?_
    intro inner inner' rest rest' hinner hrest
    refine (hinner.mapM_split fun _ _ h => TypeExpr.wholeWith_agree ht h).bind ?_
    intro elements elements' helements
    exact .ok ⟨.tuple helements, hrest.mono (Nat.le_succ n)⟩
  · obtain ⟨t, rfl, hrest⟩ := hstart.cons_left (by decide)
    refine (hrest.enclosed .square).bind_pair ?_
    intro inner inner' rest rest' hinner hrest
    refine (TypeExpr.squareWith_agree ht hinner).bind ?_
    intro t t' ht
    exact .ok ⟨ht, hrest.mono (Nat.le_succ n)⟩
  · rename_i h₁ h₂ h₃ h₄
    refine absurd ?_ hword
    rintro c hc hmark
    obtain ⟨t, rfl⟩ := List.head?_eq_some_iff.1 hc
    simp only [List.mem_cons, List.not_mem_nil, or_false] at hmark
    rcases hmark with rfl | rfl | rfl | rfl
    · exact h₁ t rfl
    · exact h₂ t rfl
    · exact h₃ t rfl
    · exact h₄ t rfl

end Layer

/-- The two depths only have to reach as far as the first text is long. -/
theorem TypeExpr.readWithin_agree (n : Nat) {m m' : Nat} (hm : n ≤ m) (hm' : n ≤ m') :
    Reader.Agree n TypeExpr.SameLines (TypeExpr.readWithin m) (TypeExpr.readWithin m') ∧
      Reader.Agree n (List.Forall₂ GenericArg.SameLines) (GenericArg.moreWithin m)
        (GenericArg.moreWithin m') := by
  induction n generalizing m m' with
  | zero =>
    constructor
    · rintro _ _ ⟨⟩
      rw [readWithin_nil, readWithin_nil]
      exact .error (.noIdentifier (n := 0) .nil)
    · rintro _ _ ⟨⟩
      rw [GenericArg.moreWithin_nil, GenericArg.moreWithin_nil]
      exact .ok ⟨.nil, .nil⟩
  | succ n ih =>
    obtain ⟨m, rfl⟩ := Nat.exists_eq_succ_of_ne_zero (Nat.ne_zero_of_lt hm)
    obtain ⟨m', rfl⟩ := Nat.exists_eq_succ_of_ne_zero (Nat.ne_zero_of_lt hm')
    obtain ⟨ht, hmore⟩ := ih (Nat.le_of_succ_le_succ hm) (Nat.le_of_succ_le_succ hm')
    exact ⟨level_agree ht hmore, GenericArg.moreLevel_agree ht hmore⟩

theorem TypeExpr.read_agree {n : Nat} :
    Reader.Agree n TypeExpr.SameLines TypeExpr.read TypeExpr.read := by
  intro s s' h
  have hread := (readWithin_agree s.length (Nat.le_refl _) h.length_le_length).1 _ _ h.of_length
  exact hread.mono fun _ _ hp => ⟨hp.1, hp.2.mono h.length_le⟩

theorem TypeExpr.ofText_agree {n : Nat} {s s' : List Char} (h : Text.SameLines n s s') :
    Agree TypeExpr.SameLines (TypeExpr.ofText s) (TypeExpr.ofText s') :=
  TypeExpr.wholeWith_agree TypeExpr.read_agree h

end ApiSurface
