import ApiSurface.Proofs.LineEndings.Parameter
import ApiSurface.Proofs.Source.Lead
import ApiSurface.Source.Target

namespace ApiSurface

open Text TopLevel
open ApiSurface.Bracket (enclosed)

def Lead.crlf (l : Lead) : Lead := ⟨crlfString l.visibility, l.qualifiers.map crlfString⟩

/-- The endings of the text show in the scope of the visibility, in the interface that a qualifier
names and in the lengths of arrays. -/
def Signature.crlf (s : Signature) : Signature :=
  { s with
    visibility := crlfString s.visibility
    qualifiers := s.qualifiers.map crlfString
    parameters := s.parameters.map Parameter.crlf
    returnType := s.returnType.map TypeExpr.crlf }

def FunctionItem.crlf (item : FunctionItem) : FunctionItem :=
  ⟨item.signature.crlf, crlfString item.body⟩

def SameLead (l l' : Lead) : Prop := l' = l.crlf

def SameItem (item item' : FunctionItem) : Prop := item' = item.crlf

/-- A text taken from both texts, each with its endings. -/
def SameString (s s' : String) : Prop := s' = crlfString s

theorem SameString.of_line {s : String} (h : '\n' ∉ s.toList) : SameString s s :=
  (crlfString_eq_self h).symm

theorem map_of_sameString {words words' : List String} (h : List.Forall₂ SameString words words') :
    words' = words.map crlfString := by
  induction h with
  | nil => rfl
  | cons hw _ ih => rw [List.map_cons, hw, ih]

variable {n : Nat} {s s' : List Char}

namespace Lead

theorem readVisibility_agree : Reader.Agree n SameString readVisibility readVisibility := by
  intro s s' h
  have hk := h.keyword? "pub".toList (by decide)
  unfold readVisibility
  generalize keyword? "pub".toList s = found, keyword? "pub".toList s' = found' at hk ⊢
  cases hk with
  | none => exact .ok ⟨.of_line (s := Signature.privateWord) (by decide), h⟩
  | @some t t' ht =>
    have hstart := ht.trimStart
    dsimp only
    generalize trimStart t = u, trimStart t' = u' at hstart ⊢
    split
    · obtain ⟨t, rfl, hscope⟩ := hstart.cons_left (by decide)
      refine (hscope.enclosed .round).map_pair ?_
      intro inner inner' rest rest' hinner hrest
      refine ⟨?_, hrest.mono (by omega)⟩
      simp (disch := decide) only [SameString, hinner.trim.eq_crlf, crlfString_ofList, crlf_append,
        crlf_eq_self]
    · rename_i hs
      split
      · exact (hstart.false_of_cons (by decide) hs).elim
      · exact .ok ⟨.of_line (s := Signature.publicWord) (by decide), ht.mono (by omega)⟩

theorem readInterface_agree (h : SameLines n s s') :
    Agree (fun p p' => SameString p.1 p'.1 ∧ SameLines n p.2 p'.2) (readInterface s)
      (readInterface s') := by
  have hstart := h.trimStart
  unfold readInterface
  generalize trimStart s = u, trimStart s' = u' at hstart ⊢
  split
  · rename_i t
    obtain ⟨t', rfl, ht⟩ := hstart.cons_left (by decide)
    obtain ⟨hd, hd'⟩ | ⟨v, v', hd, hd', hv⟩ := ht.dropWhile_ne (c := '"') (by decide) (by decide)
    · simp only [hd, hd']
      exact .error (.malformedSignature (crlfString_eq_self (by decide)).symm)
    · simp only [hd, hd']
      have hname := (ht.takeWhile (p := (· != '"')) (by decide)).eq_crlf
      refine .ok ⟨?_, hv.mono (by omega)⟩
      simp (disch := decide) only [SameString, hname, crlfString_ofList, crlf_append, crlf_eq_self]
  · rename_i hs
    split
    · exact (hstart.false_of_cons (by decide) hs).elim
    · exact .ok ⟨.of_line (s := "extern") (by decide), hstart⟩

theorem findSome?_keyword_agree (h : SameLines n s s') (words : List String)
    (hw : ∀ word ∈ words, word.toList ≠ [] ∧ IsUnbroken word.toList) :
    Option.Rel (fun p p' => SameString p.1 p'.1 ∧ SameLines (n - 1) p.2 p'.2)
      (words.findSome? fun word => (keyword? word.toList s).map (word, ·))
      (words.findSome? fun word => (keyword? word.toList s').map (word, ·)) := by
  induction words with
  | nil => exact .none
  | cons word words ih =>
    obtain ⟨hne, hu⟩ := hw word List.mem_cons_self
    have hk := h.keyword? word.toList hu
    have hpos := List.length_pos_iff.2 hne
    rw [List.findSome?_cons, List.findSome?_cons]
    generalize keyword? word.toList s = found, keyword? word.toList s' = found' at hk ⊢
    cases hk with
    | none => exact ih fun w h => hw w (List.mem_cons_of_mem _ h)
    | some hk => exact .some ⟨.of_line hu.not_mem, hk.mono (by omega)⟩

theorem qualifier?_agree (h : SameLines n s s') :
    Agree (Option.Rel fun p p' => SameString p.1 p'.1 ∧ SameLines (n - 1) p.2 p'.2) (qualifier? s)
      (qualifier? s') := by
  have hw := findSome?_keyword_agree h plainWords (by decide)
  have hk := h.keyword? "extern".toList (by decide)
  unfold qualifier?
  generalize plainWords.findSome? (fun word => (keyword? word.toList s).map (word, ·)) = found,
    plainWords.findSome? (fun word => (keyword? word.toList s').map (word, ·)) = found' at hw ⊢
  cases hw with
  | some hw => exact .ok (.some hw)
  | none =>
    generalize keyword? "extern".toList s = other, keyword? "extern".toList s' = other' at hk ⊢
    cases hk with
    | none => exact .ok .none
    | some hk =>
      refine (readInterface_agree (hk.mono (show n - 6 ≤ n - 1 by omega))).map ?_
      exact fun _ _ hp => .some hp

/-- One step through the qualifiers. -/
theorem readQualifiers_eq (s : List Char) : readQualifiers s =
    qualifier? (trimStart s) >>= fun found =>
      match found with
      | none => .ok ([], trimStart s)
      | some (word, rest) => (readQualifiers rest).map (Prod.map (word :: ·) id) := by
  rw [readQualifiers]
  split
  · rename_i hq
    rw [hq]
    rfl
  · rename_i hq
    rw [hq]
    rfl
  · rename_i hq
    rw [hq]
    rfl

theorem readQualifiers_agree (h : SameLines n s s') :
    Agree (fun p p' => List.Forall₂ SameString p.1 p'.1 ∧ SameLines n p.2 p'.2) (readQualifiers s)
      (readQualifiers s') := by
  induction n generalizing s s' with
  | zero =>
    cases h
    rw [readQualifiers_eq]
    exact .ok ⟨.nil, .nil⟩
  | succ n ih =>
    rw [readQualifiers_eq, readQualifiers_eq]
    refine (qualifier?_agree h.trimStart).bind ?_
    intro found found' hfound
    cases hfound with
    | none => exact .ok ⟨.nil, h.trimStart⟩
    | @some p p' hp =>
      refine (ih hp.2).map_pair ?_
      intro words words' rest rest' hwords hrest
      exact ⟨.cons hp.1 hwords, hrest.mono (Nat.le_succ n)⟩

theorem read_agree : Reader.Agree n SameLead read read := by
  intro s s' h
  refine (readVisibility_agree _ _ h).bind_pair ?_
  rintro v _ rest rest' rfl hrest
  refine (readQualifiers_agree hrest).bind_pair ?_
  intro words words' rest rest' hwords hrest
  refine .ok ⟨?_, hrest⟩
  rw [SameLead, Lead.crlf, map_of_sameString hwords]

end Lead

theorem afterKeyword_agree (kw : List Char) (hk : IsUnbroken kw) (h : SameLines n s s') :
    Agree (SameLines n) (afterKeyword kw s) (afterKeyword kw s') := by
  have hs := h.keyword? kw hk
  unfold afterKeyword
  generalize keyword? kw s = found, keyword? kw s' = found' at hs ⊢
  cases hs with
  | some hs => exact .ok (hs.mono (Nat.sub_le _ _))
  | none =>
    refine .error (.malformedSignature ?_)
    simp (disch := decide) only [toString, crlfString_append, crlfString_ofList, hk.crlf_eq,
      crlfString_eq_self]

theorem afterWhere_sameLines (h : SameLines n s s') :
    SameLines n (afterWhere s) (afterWhere s') := by
  have hs := h.keyword? whereWord (by decide)
  unfold afterWhere
  generalize keyword? whereWord s = found, keyword? whereWord s' = found' at hs ⊢
  cases hs with
  | none => exact h
  | some hs => exact hs.header.2.trimStart.mono (Nat.sub_le _ _)

namespace FunctionItem

theorem genericName_agree (h : SameLines n s s') : Agree Eq (genericName s) (genericName s') := by
  unfold genericName
  split
  · obtain ⟨t, rfl, -⟩ := h.cons_left (by decide)
    refine (readLifetime_agree _ _ h).map_pair ?_
    rintro l _ rest rest' ⟨rfl, -⟩ -
    rfl
  · rename_i hs
    split
    · exact (h.false_of_cons (by decide) hs).elim
    · have hk := h.keyword? "const".toList (by decide)
      have hstart : SameLines n ((keyword? "const".toList s).elim s trimStart)
          ((keyword? "const".toList s').elim s' trimStart) := by
        generalize keyword? "const".toList s = found, keyword? "const".toList s' = found' at hk ⊢
        cases hk with
        | none => exact h
        | some hk => exact hk.trimStart.mono (Nat.sub_le _ _)
      refine (readIdentifier_agree _ _ hstart).map_pair ?_
      rintro word _ rest rest' ⟨rfl, -⟩ -
      rfl

theorem readGenerics_agree : Reader.Agree n (List.Forall₂ Eq) readGenerics readGenerics := by
  intro s s' h
  unfold readGenerics
  split
  · obtain ⟨t, rfl, ht⟩ := h.cons_left (by decide)
    refine (ht.enclosed .angle).bind_pair ?_
    intro inner inner' rest rest' hinner hrest
    refine (hinner.mapM_split fun _ _ h => genericName_agree h).bind ?_
    intro names names' hnames
    exact .ok ⟨hnames, hrest.trimStart.mono (Nat.sub_le n 1)⟩
  · rename_i hs
    split
    · exact (h.false_of_cons (by decide) hs).elim
    · exact .ok ⟨.nil, h⟩

theorem readParameters_agree {name : String} (hn : '\n' ∉ name.toList) :
    Reader.Agree n (List.Forall₂ Parameter.SameLines) (readParameters name)
      (readParameters name) := by
  intro s s' h
  unfold readParameters
  split
  · obtain ⟨t, rfl, ht⟩ := h.cons_left (by decide)
    refine (ht.enclosed .round).bind_pair ?_
    intro inner inner' rest rest' hinner hrest
    refine (Parameter.ofText_agree hinner).bind ?_
    intro ps ps' hps
    exact .ok ⟨hps, hrest.trimStart.mono (Nat.sub_le n 1)⟩
  · rename_i hs
    split
    · exact (h.false_of_cons (by decide) hs).elim
    · refine .error (.malformedSignature ?_)
      simp (disch := decide) only [toString, crlfString_append, crlfString_eq_self hn,
        crlfString_eq_self]

theorem readReturnType_agree :
    Reader.Agree n (Option.Rel TypeExpr.SameLines) readReturnType readReturnType := by
  intro s s' h
  unfold readReturnType
  split
  · obtain ⟨t, rfl, h₁⟩ := h.cons_left (by decide)
    obtain ⟨t, rfl, h₂⟩ := h₁.cons_left (by decide)
    refine (TypeExpr.ofText_agree h₂.header.1).map ?_
    intro type type' htype
    exact ⟨.some htype, h₂.header.2.trimStart.mono (by omega)⟩
  · rename_i hs
    split
    · obtain ⟨t, rfl, h₁⟩ := h.cons_right (by decide)
      obtain ⟨t, rfl, h₂⟩ := h₁.cons_right (by decide)
      exact (hs _ rfl).elim
    · exact .ok ⟨.none, h⟩

theorem readBody_agree {name : String} (hn : '\n' ∉ name.toList) :
    Reader.Agree n SameString (readBody name) (readBody name) := by
  intro s s' h
  unfold readBody
  split
  · obtain ⟨t, rfl, ht⟩ := h.cons_left (by decide)
    refine (ht.enclosed .curly).map_pair ?_
    intro inner inner' rest rest' hinner hrest
    refine ⟨?_, hrest.mono (Nat.sub_le n 1)⟩
    simp only [SameString, Prod.map, hinner.eq_crlf, crlfString_ofList]
  · rename_i hs
    split
    · exact (h.false_of_cons (by decide) hs).elim
    · refine .error (.malformedSignature ?_)
      simp (disch := decide) only [toString, crlfString_append, crlfString_eq_self hn,
        crlfString_eq_self]

theorem read_agree : Reader.Agree n SameItem read read := by
  intro s s' h
  refine (Lead.read_agree _ _ h).bind_pair ?_
  rintro lead _ rest rest' rfl hrest
  refine (afterKeyword_agree fnWord (by decide) hrest).bind ?_
  intro rest rest' hrest
  refine (readIdentifier_agree _ _ hrest.trimStart).bind_pair ?_
  rintro _ name rest rest' ⟨rfl, hu⟩ hrest
  have hn : '\n' ∉ (String.ofList name).toList := by simpa using hu.not_mem
  refine (readGenerics_agree _ _ hrest.trimStart).bind_pair ?_
  intro generics generics' rest rest' hgenerics hrest
  refine (readParameters_agree hn _ _ hrest).bind_pair ?_
  intro ps ps' rest rest' hps hrest
  refine (readReturnType_agree _ _ hrest).bind_pair ?_
  intro type type' rest rest' htype hrest
  refine (readBody_agree hn _ _ (afterWhere_sameLines hrest)).bind_pair ?_
  rintro body _ rest rest' rfl hrest
  refine .ok ⟨?_, hrest⟩
  have hgenerics : generics = generics' := by rwa [List.forall₂_eq_eq_eq] at hgenerics
  have htype : type' = type.map TypeExpr.crlf := by
    cases htype with
    | none => rfl
    | some htype => rw [htype.eq, Option.map_some]
  rw [SameItem, FunctionItem.crlf, Signature.crlf, Parameter.map_crlf_of_sameLines hps, htype,
    hgenerics]
  rfl

end FunctionItem

/-- No owner is named by the length of an array. -/
theorem TypeExpr.ownerName?_crlf (t : TypeExpr) : t.crlf.ownerName? = t.ownerName? := by
  induction t using TypeExpr.ownerName?.induct with
  | case1 path generics => rfl
  | case2 isMutable lifetime inner ih => exact ih
  | case3 t hnamed hreference =>
    cases t with
    | named name generics => exact absurd rfl (hnamed name generics)
    | reference isMutable lifetime inner => exact absurd rfl (hreference isMutable lifetime inner)
    | fnTrait kind params result => cases result <;> rfl
    | _ => rfl

namespace Target

theorem afterGenerics_agree (h : SameLines n s s') :
    Agree (SameLines n) (afterGenerics s) (afterGenerics s') := by
  unfold afterGenerics
  split
  · obtain ⟨t, rfl, ht⟩ := h.cons_left (by decide)
    exact (ht.enclosed .angle).map_pair fun _ _ _ _ _ hrest => hrest.mono (Nat.sub_le n 1)
  · rename_i hs
    split
    · exact (h.false_of_cons (by decide) hs).elim
    · exact .ok h

theorem typeText_sameLines (h : SameLines n s s') : SameLines n (typeText s) (typeText s') := by
  have hs := h.splitKeywordFrom forWord (by decide) (by decide) 0 start
  unfold typeText splitKeyword?
  generalize splitKeywordFrom forWord 0 start s = found,
    splitKeywordFrom forWord 0 start s' = found' at hs ⊢
  cases hs with
  | none => exact h
  | some hs => exact hs.2

theorem ownerOfText_agree (h : SameLines n s s') :
    Agree Eq (ownerOfText s) (ownerOfText s') := by
  refine (TypeExpr.ofText_agree h).bind ?_
  intro t t' ht
  rw [ht.eq, TypeExpr.ownerName?_crlf]
  split
  · exact .ok rfl
  · refine .error (.malformedSignature ?_)
    simp (disch := decide) only [toString, h.trim.eq_crlf, crlfString_append, crlfString_eq_self,
      crlfString_ofList]

/-- Both heads name the same owner, and both blocks begin with their braces. -/
theorem read_agree (h : SameLines n s s') :
    Agree (fun p p' => p'.1 = p.1 ∧
      ∃ t t', p.2 = '\x7b' :: t ∧ p'.2 = '\x7b' :: t' ∧ SameLines n t t') (read s) (read s') := by
  refine (Lead.read_agree _ _ h).bind_pair ?_
  intro lead lead' rest rest' _ hrest
  refine (afterKeyword_agree implWord (by decide) hrest).bind ?_
  intro rest rest' hrest
  refine (afterGenerics_agree hrest.trimStart).bind ?_
  intro rest rest' hrest
  obtain ⟨hhead, hrest⟩ := hrest.header
  have hblock := afterWhere_sameLines hrest.trimStart
  dsimp only
  generalize afterWhere (trimStart (header rest).2) = u,
    afterWhere (trimStart (header rest').2) = u' at hblock ⊢
  split
  · obtain ⟨t, rfl, ht⟩ := hblock.cons_left (by decide)
    refine (ownerOfText_agree (typeText_sameLines hhead)).bind ?_
    rintro owner _ rfl
    exact .ok ⟨rfl, _, _, rfl, rfl, ht.mono (Nat.sub_le n 1)⟩
  · rename_i hs
    split
    · exact (hblock.false_of_cons (by decide) hs).elim
    · exact .error (.malformedSignature (crlfString_eq_self (by decide)).symm)

end Target

end ApiSurface
