import ApiSurface.Proofs.Parameter
import ApiSurface.Proofs.Source.Header
import ApiSurface.Proofs.Source.Lead

namespace ApiSurface

open Text TopLevel
open ApiSurface.Bracket (Passes IsNested outside enclosed)

/-- The name of a generic parameter: a lifetime, or an identifier other than `const`. -/
def IsGeneric (s : List Char) : Prop := IsLifetime s ∨ isIdentifier s = true ∧ s ≠ "const".toList

/-- No word `where` stands outside brackets. -/
def HasNoWhere (s : List Char) : Prop :=
  ∀ place ∈ outside s, isWordChar place.1 = false →
    keyword? whereWord (place.2.1 :: place.2.2) = none

instance (s : List Char) : Decidable (HasNoWhere s) :=
  inferInstanceAs (Decidable (∀ place ∈ outside s, _ → _))

structure Signature.WellFormed (s : Signature) : Prop where
  name : isIdentifier s.name.toList = true
  visibility : Lead.IsVisibility s.visibility
  qualifiers : ∀ q ∈ s.qualifiers, Lead.IsQualifier q
  generics : ∀ g ∈ s.generics, IsGeneric g.toList
  parameters : Parameter.AreListed s.parameters
  returned : ∀ t ∈ s.returnType, t.WellFormed ∧ HasNoWhere t.chars

theorem IsGeneric.passes {s : List Char} (h : IsGeneric s) : Passes isTypeChar s := by
  obtain h | ⟨h, -⟩ := h
  · exact h.passes
  · exact passes_of_isIdentifier h

theorem IsGeneric.tight {s : List Char} (h : IsGeneric s) : IsTight s := by
  obtain h | ⟨h, -⟩ := h
  · exact h.tight
  · exact IsTight.of_isIdentifier h

/-- In a type no header ends but at the word `where`. -/
theorem TypeExpr.WellFormed.isHeader {t : TypeExpr} (ht : t.WellFormed)
    (hw : HasNoWhere t.chars) : IsHeader t.chars := by
  apply IsHeader.of_lacksWord ⟨ht.passes.nested, hw⟩
  intro place hp
  have hc := ht.passes.outside place hp
  simp only [isTypeChar, Bool.and_eq_true, bne_iff_ne] at hc
  exact ⟨hc.2, hc.1.2⟩

namespace Signature

open FunctionItem (fnWord)

/-- What is written after the word `fn` and the blank that follows it. -/
def declaredChars (s : Signature) : List Char :=
  s.name.toList ++ (genericChars s.generics ++ '(' ::
    (", ".toList.intercalate (s.parameters.map Parameter.chars) ++ ')' ::
      TypeExpr.resultChars s.returnType))

theorem chars_eq (s : Signature) : s.chars = visibilityChars s.visibility ++
    (Lead.qualifierChars s.qualifiers ++ (fnWord ++ ' ' :: s.declaredChars)) := by
  have hfn : "fn ".toList = fnWord ++ [' '] := rfl
  simp only [chars, hfn, declaredChars, Lead.qualifierChars, TypeExpr.resultChars,
    List.append_assoc, List.cons_append, List.nil_append]

variable {s : Signature}

theorem WellFormed.read_lead (hs : s.WellFormed) (t : List Char) :
    Lead.read (s.chars ++ t) =
      .ok (⟨s.visibility, s.qualifiers⟩, fnWord ++ ' ' :: (s.declaredChars ++ t)) := by
  have hword : Lead.BeginsWord (fnWord ++ ' ' :: (s.declaredChars ++ t)) := ⟨'f', _, rfl, by decide⟩
  have h := Lead.read_chars hs.visibility hs.qualifiers hword rfl
  rw [chars_eq]
  simp only [List.append_assoc, List.cons_append]
  exact h

/-- A written signature begins with no blank. -/
theorem WellFormed.first (hs : s.WellFormed) : ∃ c t, s.chars = c :: t ∧ isBlank c = false := by
  have hword : Lead.BeginsWord (fnWord ++ ' ' :: s.declaredChars) := ⟨'f', _, rfl, by decide⟩
  rw [chars_eq]
  obtain hv | ⟨t, hv⟩ := hs.visibility.first
  · obtain ⟨c, t, he, hb, -⟩ := (Lead.beginsWord_qualifierChars hs.qualifiers hword).marks
    exact ⟨c, t, by rw [hv, List.nil_append, he], hb⟩
  · exact ⟨'p', _, by rw [hv, List.cons_append], by decide⟩

section Braces

theorem genericChars_of_ne_nil {names : List String} (hn : names ≠ []) : genericChars names =
    '<' :: ", ".toList.intercalate (names.map String.toList) ++ ['>'] := by
  unfold genericChars
  split
  · exact absurd rfl hn
  · rfl

theorem isNested_genericChars {names : List String} (h : ∀ g ∈ names, IsGeneric g.toList) :
    IsNested (genericChars names) := by
  by_cases hn : names = []
  · subst hn
    exact Bracket.isNested_nil
  · have hinner := passes_list fun g hg => (h g hg).passes
    rw [genericChars_of_ne_nil hn]
    exact (Passes.enclose .angle hinner.nested (fun _ => hinner.last) rfl :
      Passes (fun _ => true) _).nested

theorem WellFormed.isNested_declaredChars (hs : s.WellFormed) : IsNested s.declaredChars := by
  have hname := (passes_of_isIdentifier hs.name).nested
  have hgenerics := isNested_genericChars hs.generics
  have hparameters : Passes (fun _ => true) ('(' :: ", ".toList.intercalate
      (s.parameters.map Parameter.chars) ++ [')']) :=
    Passes.enclose .round (passes_list fun p hp => (hs.parameters.each p hp).passes_chars).nested
      (fun h => absurd h (by decide)) rfl
  have hresult := (passes_resultChars fun t h => (hs.returned t h).1.passes).nested
  have hall := hname.append (hgenerics.append (hparameters.nested.append hresult))
  simpa only [declaredChars, List.cons_append, List.append_assoc, List.nil_append] using hall

/-- In a signature only the visibility and the qualifiers may leave a brace open. -/
theorem WellFormed.isBalanced_chars (hs : s.WellFormed)
    (hv : Bracket.curly.IsBalanced s.visibility.toList)
    (hq : ∀ q ∈ s.qualifiers, Bracket.curly.IsBalanced q.toList) :
    Bracket.curly.IsBalanced s.chars := by
  have hblank : Bracket.curly.IsBalanced [' '] := by decide
  have hvisibility : Bracket.curly.IsBalanced (visibilityChars s.visibility) := by
    unfold visibilityChars
    split
    · decide
    · exact hv.append hblank
  have hqualifiers : Bracket.curly.IsBalanced (Lead.qualifierChars s.qualifiers) :=
    Bracket.IsBalanced.flatMap fun q h => (hq q h).append hblank
  have hfn : Bracket.curly.IsBalanced (fnWord ++ [' ']) := by decide
  have hdeclared := hs.isNested_declaredChars.isBalanced (b := .curly) (by decide)
  have hall := hvisibility.append (hqualifiers.append (hfn.append hdeclared))
  rw [chars_eq]
  simpa only [List.append_assoc, List.cons_append, List.nil_append] using hall

end Braces

end Signature

namespace FunctionItem

section Generics

variable {names : List String}

theorem genericName_chars {name : String} (h : IsGeneric name.toList) :
    genericName name.toList = .ok name := by
  obtain hl | ⟨hw, hne⟩ := h
  · have hr : readLifetime (name.toList ++ []) = .ok (name.toList, []) := readLifetime_append hl rfl
    obtain ⟨word, -, hq⟩ := hl
    rw [List.append_nil, hq] at hr
    rw [hq, genericName, hr]
    simp [Except.map, ← hq]
  · have hr : readIdentifier (name.toList ++ []) = .ok (name.toList, []) :=
      readIdentifier_append hw rfl
    have hk : keyword? "const".toList (name.toList ++ []) = none :=
      keyword?_eq_none_of_ne (by decide) (forall_isWordChar_of_isIdentifier hw) rfl hne
    rw [List.append_nil] at hr hk
    unfold genericName
    split
    · rename_i rest hq
      rw [hq] at hw
      cases hw
    · rw [hk, Option.elim_none, hr]
      simp [Except.map]

/-- A bracket stands after the name of a function. -/
theorem genericChars_mark (names : List String) (rest : List Char) :
    ∃ c more, Signature.genericChars names ++ '(' :: rest = c :: more ∧ isWordChar c = false ∧
      isBlank c = false := by
  cases names with
  | nil => exact ⟨'(', rest, rfl, by decide, by decide⟩
  | cons name names => exact ⟨'<', _, rfl, by decide, by decide⟩

/-- Written generic parameters are read back from in front of the parentheses. -/
theorem readGenerics_chars (h : ∀ g ∈ names, IsGeneric g.toList) (rest : List Char) :
    readGenerics (Signature.genericChars names ++ '(' :: rest) = .ok (names, '(' :: rest) := by
  by_cases hn : names = []
  · subst hn
    rfl
  have hinner := passes_list fun g hg => (h g hg).passes
  have hchars : Signature.genericChars names ++ '(' :: rest =
      '<' :: (", ".toList.intercalate (names.map String.toList) ++ '>' :: '(' :: rest) := by
    rw [Signature.genericChars_of_ne_nil hn, List.append_assoc]
    rfl
  have he : enclosed ('<' :: (", ".toList.intercalate (names.map String.toList) ++
      '>' :: '(' :: rest)) = .ok (_, '(' :: rest) :=
    hinner.nested.enclosed (b := .angle) (fun _ => hinner.last) ('(' :: rest)
  have hsplit := split_map_intercalate (fun g hg => (h g hg).passes) fun g hg => (h g hg).tight
  have hnames : (names.map String.toList).mapM genericName = .ok names :=
    mapM_map_eq_ok fun g hg => genericName_chars (h g hg)
  rw [hchars, readGenerics, he, ok_bind]
  dsimp only
  rw [hsplit, hnames, ok_bind, trimStart_cons rfl]
  rfl

end Generics

section Parts

/-- A written parameter list is read back from in front of any text. -/
theorem readParameters_chars {ps : List Parameter} (hp : Parameter.AreListed ps) (name : String)
    (rest : List Char) :
    readParameters name ('(' :: (", ".toList.intercalate (ps.map Parameter.chars) ++ ')' :: rest)) =
      .ok (ps, trimStart rest) := by
  have he : enclosed ('(' :: (", ".toList.intercalate (ps.map Parameter.chars) ++ ')' :: rest)) =
      .ok (_, rest) :=
    (passes_list fun p hm => (hp.each p hm).passes_chars).nested.enclosed (b := .round)
      (fun h => absurd h (by decide)) rest
  rw [readParameters, he, ok_bind]
  dsimp only
  rw [Parameter.ofText_intercalate hp]
  rfl

theorem readReturnType_chars {returnType : Option TypeExpr}
    (ht : ∀ t ∈ returnType, t.WellFormed ∧ HasNoWhere t.chars) (rest : List Char) :
    readReturnType (trimStart (TypeExpr.resultChars returnType ++ ' ' :: '\x7b' :: rest)) =
      .ok (returnType, '\x7b' :: rest) := by
  cases returnType with
  | none => rfl
  | some t =>
    obtain ⟨hw, hn⟩ := ht t rfl
    have hhead : IsHeader (' ' :: (t.chars ++ [' '])) :=
      ((hw.isHeader hn).append IsHeader.nil.blank_cons rfl).blank_cons
    have hread : TypeExpr.ofText ([' '] ++ (t.chars ++ [' '])) = .ok t :=
      TypeExpr.wholeWith_eq_ok (TypeExpr.read_chars hw rfl (Stops.blank rfl)) rfl
    have hchars : trimStart (TypeExpr.resultChars (some t) ++ ' ' :: '\x7b' :: rest) =
        '-' :: '>' :: (' ' :: (t.chars ++ [' ']) ++ '\x7b' :: rest) := by
      rw [TypeExpr.resultChars, Option.elim_some, List.append_assoc]
      change trimStart (' ' :: '-' :: '>' :: ' ' :: (t.chars ++ ' ' :: '\x7b' :: rest)) = _
      rw [trimStart_cons_blank rfl, trimStart_cons rfl]
      simp only [List.cons_append, List.append_assoc, List.nil_append]
    rw [hchars, readReturnType, hhead.header_brace]
    change (TypeExpr.ofText ([' '] ++ (t.chars ++ [' ']))).map _ = _
    rw [hread]
    rfl

theorem readBody_chars {body : List Char} (hb : Bracket.curly.IsBalanced body) (name : String)
    (rest : List Char) :
    readBody name ('\x7b' :: (body ++ '\x7d' :: rest)) = .ok (String.ofList body, rest) := by
  have he : enclosed ('\x7b' :: (body ++ '\x7d' :: rest)) = .ok (body, rest) :=
    hb.enclosed (by decide) rest
  rw [readBody, he]
  rfl

end Parts

/-- A written function is read back from in front of any text. -/
theorem read_chars {s : Signature} (hs : s.WellFormed) {body : String}
    (hb : Bracket.curly.IsBalanced body.toList) (rest : List Char) :
    read (s.chars ++ ' ' :: '\x7b' :: (body.toList ++ '\x7d' :: rest)) =
      .ok (⟨s, body⟩, rest) := by
  have hname := IsTight.of_isIdentifier hs.name
  let arguments := '(' :: (", ".toList.intercalate (s.parameters.map Parameter.chars) ++ ')' ::
    (TypeExpr.resultChars s.returnType ++ ' ' :: '\x7b' :: (body.toList ++ '\x7d' :: rest)))
  have hlead : Lead.read (s.chars ++ ' ' :: '\x7b' :: (body.toList ++ '\x7d' :: rest)) =
      .ok (⟨s.visibility, s.qualifiers⟩,
        fnWord ++ ' ' :: (s.name.toList ++ (Signature.genericChars s.generics ++ arguments))) := by
    rw [hs.read_lead, Signature.declaredChars]
    simp only [arguments, List.append_assoc, List.cons_append]
  have hfn : keyword? fnWord (fnWord ++ ' ' :: (s.name.toList ++
      (Signature.genericChars s.generics ++ arguments))) = _ :=
    keyword?_append fnWord (continuesWord_blank _)
  obtain ⟨mark, more, hmark, hcontinue, hblank⟩ := genericChars_mark s.generics _
  have hword : continuesWord (Signature.genericChars s.generics ++ arguments) = false := by
    rw [hmark]
    exact hcontinue
  have htrim : trimStart (Signature.genericChars s.generics ++ arguments) =
      Signature.genericChars s.generics ++ arguments := by
    rw [hmark]
    exact trimStart_cons hblank
  rw [read, hlead, ok_bind]
  dsimp only
  rw [afterKeyword, hfn, ok_bind, trimStart_cons_blank rfl, hname.trimStart_append,
    readIdentifier_append hs.name hword, ok_bind]
  dsimp only
  rw [htrim, readGenerics_chars hs.generics, ok_bind]
  dsimp only
  rw [readParameters_chars hs.parameters, ok_bind]
  dsimp only
  rw [readReturnType_chars hs.returned, ok_bind]
  dsimp only
  rw [afterWhere_brace, readBody_chars hb, ok_bind]
  simp only [String.ofList_toList]
  rfl

end FunctionItem

end ApiSurface
