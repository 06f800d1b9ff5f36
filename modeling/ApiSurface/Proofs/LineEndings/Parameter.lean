import ApiSurface.Parameter.Reader
import ApiSurface.Proofs.LineEndings.Reader
import ApiSurface.Proofs.TypeExpr.Layer

namespace ApiSurface.Parameter

open Text TopLevel

def crlf : Parameter → Parameter
  | .receiver modifiers => .receiver modifiers
  | .typed name type => .typed name type.crlf

/-- `p'` is `p` with the other line endings; their common name stands on one line. -/
structure SameLines (p p' : Parameter) : Prop where
  eq : p' = p.crlf
  name : '\n' ∉ p.name.toList

theorem SameLines.name_eq {p p' : Parameter} (h : p.SameLines p') : p'.name = p.name := by
  rw [h.eq]
  cases p <;> rfl

theorem map_crlf_of_sameLines {ps ps' : List Parameter} (h : List.Forall₂ SameLines ps ps') :
    ps' = ps.map crlf := by
  induction h with
  | nil => rfl
  | cons hp _ ih => rw [List.map_cons, hp.eq, ih]

variable {n : Nat} {s s' : List Char}

theorem receiver?_agree (h : Text.SameLines n s s') :
    Agree Eq (receiver? s) (receiver? s') := by
  have hread := Modifiers.read_agree _ _ h
  unfold receiver?
  generalize Modifiers.read s = x, Modifiers.read s' = x' at hread ⊢
  cases hread with
  | error => exact .ok rfl
  | @ok p p' hp =>
    obtain ⟨m, rest⟩ := p
    obtain ⟨m', rest'⟩ := p'
    obtain ⟨⟨hm, -⟩, hrest⟩ := hp
    obtain rfl : m' = m := hm
    have hk := hrest.keyword? selfWord (by decide)
    dsimp only at hk ⊢
    generalize keyword? selfWord rest = found, keyword? selfWord rest' = found' at hk ⊢
    cases hk with
    | none => exact .ok rfl
    | @some t t' ht =>
      have htrim := ht.trim
      dsimp only
      generalize trim t = u, trim t' = u' at htrim ⊢
      split
      · obtain rfl : u' = [] := htrim.eq_nil_iff.2 rfl
        exact .ok rfl
      · obtain ⟨t, rfl, htype⟩ := htrim.cons_left (by decide)
        exact (TypeExpr.ofText_agree htype).map fun _ _ _ => rfl
      · rename_i hnil hcolon
        split
        · exact absurd (htrim.eq_nil_iff.1 rfl) hnil
        · exact (htrim.false_of_cons (by decide) hcolon).elim
        · refine .error (.malformedParameters ?_)
          simp (disch := decide) only [toString, htrim.eq_crlf, crlfString_append,
            crlfString_eq_self, crlfString_ofList]

theorem afterColon_agree {name : String} (hn : '\n' ∉ name.toList) (h : Text.SameLines n s s') :
    Agree (Text.SameLines n) (afterColon name s) (afterColon name s') := by
  unfold afterColon
  obtain ⟨t, t', rfl, rfl, h₁⟩ | ⟨hs, hs'⟩ := h.head_cases (c := ':') (by decide) (by decide)
  · obtain ⟨t, t', rfl, rfl, -⟩ | ⟨ht, ht'⟩ := h₁.head_cases (c := ':') (by decide) (by decide)
    · refine .error (.malformedParameters ?_)
      simp (disch := decide) only [toString, crlfString_append, crlfString_eq_self hn,
        crlfString_eq_self]
    · simp only
      exact .ok (h₁.mono (Nat.sub_le n 1))
  · split
    · exact (hs _ rfl).elim
    · exact (hs _ rfl).elim
    split
    · exact (hs' _ rfl).elim
    · exact (hs' _ rfl).elim
    refine .error (.malformedParameters ?_)
    simp (disch := decide) only [toString, crlfString_append, crlfString_eq_self hn,
      crlfString_eq_self]

theorem readName_agree : Reader.Agree n SameWord readName readName := by
  intro s s' h
  have hk := h.keyword? Modifiers.mutWord (by decide)
  have hstart : Text.SameLines n ((keyword? Modifiers.mutWord s).elim s trimStart)
      ((keyword? Modifiers.mutWord s').elim s' trimStart) := by
    generalize keyword? Modifiers.mutWord s = found, keyword? Modifiers.mutWord s' = found' at hk ⊢
    cases hk with
    | none => exact h
    | some hk => exact hk.trimStart.mono (Nat.sub_le _ _)
  unfold readName
  refine (readIdentifier_agree _ _ hstart).mapError fun _ _ _ => ?_
  obtain ⟨hline, hu⟩ := hstart.firstLine_eq
  refine .malformedParameters ?_
  simp (disch := decide) only [toString, hline, crlfString_append, crlfString_eq_self,
    crlfString_ofList, hu.crlf_eq]

theorem readTyped_agree : Reader.Agree n SameLines readTyped readTyped := by
  intro s s' h
  refine (readName_agree _ _ h).bind_pair ?_
  rintro _ name rest rest' ⟨rfl, hu⟩ hrest
  have hn : '\n' ∉ (String.ofList name).toList := by simpa using hu.not_mem
  refine (afterColon_agree hn hrest.trimStart).bind ?_
  intro rest rest' hrest
  refine (TypeExpr.read_agree _ _ hrest).bind_pair ?_
  intro t t' rest rest' ht hrest
  exact .ok ⟨⟨by rw [crlf, ht.eq], hn⟩, hrest⟩

theorem readTypedAll_agree (h : Text.SameLines n s s') :
    Agree (List.Forall₂ SameLines) (readTypedAll s) (readTypedAll s') := by
  induction n generalizing s s' with
  | zero =>
    cases h
    rw [readTypedAll_eq]
    exact .ok .nil
  | succ n ih =>
    have hstart := h.trimStart
    rw [readTypedAll_eq, readTypedAll_eq, hstart.isEmpty_eq]
    split
    · exact .ok .nil
    refine (readTyped_agree _ _ hstart).bind_pair ?_
    intro p p' rest rest' hp hrest
    have hrest := hrest.trimStart
    dsimp only
    generalize trimStart rest = u, trimStart rest' = u' at hrest ⊢
    split
    · obtain rfl : u' = [] := hrest.eq_nil_iff.2 rfl
      exact .ok (.cons hp .nil)
    · obtain ⟨t, rfl, hmore⟩ := hrest.cons_left (by decide)
      exact (ih hmore).map fun _ _ hps => .cons hp hps
    · rename_i hnil hcomma
      split
      · exact absurd (hrest.eq_nil_iff.1 rfl) hnil
      · exact (hrest.false_of_cons (by decide) hcomma).elim
      · obtain ⟨hline, hu⟩ := hrest.firstLine_eq
        refine .error (.malformedParameters ?_)
        simp (disch := decide) only [toString, hline, hp.name_eq, crlfString_append,
          crlfString_eq_self, crlfString_eq_self hp.name, crlfString_ofList, hu.crlf_eq]

theorem ofText_agree (h : Text.SameLines n s s') :
    Agree (List.Forall₂ SameLines) (ofText s) (ofText s') := by
  obtain ⟨hfirst, hmore⟩ := h.splitOnce ',' (by decide) (by decide)
  unfold ofText
  generalize splitOnce ',' s = p, splitOnce ',' s' = p' at hfirst hmore ⊢
  obtain ⟨first, more⟩ := p
  obtain ⟨first', more'⟩ := p'
  refine (receiver?_agree hfirst).bind ?_
  rintro found _ rfl
  cases found with
  | none => exact readTypedAll_agree h
  | some m =>
    have hmore : Text.SameLines n (more.getD []) (more'.getD []) := by
      cases hmore with
      | none => exact .nil
      | some hmore => exact hmore
    refine (readTypedAll_agree hmore).bind ?_
    intro ps ps' hps
    exact .ok (.cons ⟨rfl, show '\n' ∉ (String.ofList selfWord).toList by decide⟩ hps)

end ApiSurface.Parameter
