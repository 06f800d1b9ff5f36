import ApiSurface.Proofs.Nesting.Scanners
import ApiSurface.Proofs.TypeExpr.Level

namespace ApiSurface

open Text TopLevel
open ApiSurface.Bracket

/-- What a path may not begin with: each of these words begins another form. -/
def reservedWords : List (List Char) := ["impl".toList, "dyn".toList, "mut".toList]

/-- Identifiers joined by `::`, the first of them no reserved word. -/
def IsPath (s : List Char) : Prop :=
  ∃ (first : List Char) (more : List (List Char)), isIdentifier first = true ∧
    first ∉ reservedWords ∧ (∀ word ∈ more, isIdentifier word = true) ∧
    s = first ++ more.flatMap ("::".toList ++ ·)

/-- Whether the written type ends in a list of bounds, which a plus sign after it would go on. -/
def TypeExpr.endsOpen : TypeExpr → Bool
  | .implBound _ | .dynBound _ => true
  | .reference _ _ inner | .pointer _ inner => inner.endsOpen
  | .fnTrait _ _ (some result) => result.endsOpen
  | _ => false
termination_by structural t => t

def GenericArg.endsOpen : GenericArg → Bool
  | .type t => t.endsOpen
  | _ => false

def GenericArg.isBinding : GenericArg → Bool
  | .binding .. => true
  | _ => false

/-- What a list of bounds may be: no binding in it, and only the last bound open at its end. -/
structure GenericArg.AreBounds (bounds : List GenericArg) : Prop where
  nonempty : bounds ≠ []
  noBinding : ∀ a ∈ bounds, a.isBinding = false
  closed : ∀ a ∈ bounds.dropLast, a.endsOpen = false

mutual

inductive TypeExpr.WellFormed : TypeExpr → Prop
  | named {name : String} {generics : List GenericArg} (path : IsPath name.toList)
      (args : ∀ a ∈ generics, a.WellFormed) : (TypeExpr.named name generics).WellFormed
  | reference {isMutable : Bool} {lifetime : Option String} {inner : TypeExpr}
      (life : ∀ l ∈ lifetime, IsLifetime l.toList) (type : inner.WellFormed) :
      (TypeExpr.reference isMutable lifetime inner).WellFormed
  | implBound {bounds : List GenericArg} (list : GenericArg.AreBounds bounds)
      (args : ∀ a ∈ bounds, a.WellFormed) : (TypeExpr.implBound bounds).WellFormed
  | dynBound {bounds : List GenericArg} (list : GenericArg.AreBounds bounds)
      (args : ∀ a ∈ bounds, a.WellFormed) : (TypeExpr.dynBound bounds).WellFormed
  | tuple {elements : List TypeExpr} (types : ∀ t ∈ elements, t.WellFormed) :
      (TypeExpr.tuple elements).WellFormed
  | slice {inner : TypeExpr} (type : inner.WellFormed) : (TypeExpr.slice inner).WellFormed
  | array {inner : TypeExpr} {length : String} (type : inner.WellFormed)
      (trimmed : trim length.toList = length.toList) (nested : IsNested length.toList) :
      (TypeExpr.array inner length).WellFormed
  | pointer {isMutable : Bool} {inner : TypeExpr} (type : inner.WellFormed) :
      (TypeExpr.pointer isMutable inner).WellFormed
  | fnTrait {kind : String} {params : List TypeExpr} {result : Option TypeExpr}
      (callable : kind ∈ callableKinds) (types : ∀ t ∈ params, t.WellFormed)
      (returned : ∀ t ∈ result, t.WellFormed) : (TypeExpr.fnTrait kind params result).WellFormed

inductive GenericArg.WellFormed : GenericArg → Prop
  | type {type : TypeExpr} (wellFormed : type.WellFormed) : (GenericArg.type type).WellFormed
  | lifetime {name : String} (life : IsLifetime name.toList) : (GenericArg.lifetime name).WellFormed
  | binding {name : String} {type : TypeExpr} (word : isIdentifier name.toList = true)
      (wellFormed : type.WellFormed) : (GenericArg.binding name type).WellFormed

end

section Written

/-- Lists are written with a separator between their members. -/
theorem TypeExpr.listChars_eq (ts : List TypeExpr) :
    TypeExpr.listChars ts = ", ".toList.intercalate (ts.map TypeExpr.chars) := by
  cases ts with
  | nil => rfl
  | cons t ts =>
    rw [TypeExpr.listChars]
    induction ts generalizing t with
    | nil => simp [TypeExpr.charsAfter]
    | cons u ts ih =>
      rw [TypeExpr.charsAfter, List.map_cons, List.map_cons, List.intercalate_cons_cons,
        ← List.map_cons, ← ih u]
      simp only [List.append_assoc]

theorem GenericArg.chars_append_charsAfter (sep : List Char) (a : GenericArg)
    (as : List GenericArg) : a.chars ++ GenericArg.charsAfter sep as =
      sep.intercalate ((a :: as).map GenericArg.chars) := by
  induction as generalizing a with
  | nil => simp [GenericArg.charsAfter]
  | cons b as ih =>
    rw [GenericArg.charsAfter, List.map_cons, List.map_cons, List.intercalate_cons_cons,
      ← List.map_cons, ← ih b]
    simp only [List.append_assoc]

theorem GenericArg.boundChars_eq (bounds : List GenericArg) :
    GenericArg.boundChars bounds = " + ".toList.intercalate (bounds.map GenericArg.chars) := by
  cases bounds with
  | nil => rfl
  | cons a as => exact GenericArg.chars_append_charsAfter _ a as

theorem TypeExpr.chars_named {name : String} {generics : List GenericArg} (hg : generics ≠ []) :
    (TypeExpr.named name generics).chars =
      name.toList ++ ('<' :: ", ".toList.intercalate (generics.map GenericArg.chars) ++ ['>']) := by
  cases generics with
  | nil => exact absurd rfl hg
  | cons a as =>
    rw [TypeExpr.chars, ← GenericArg.chars_append_charsAfter]
    simp only [List.append_assoc, List.cons_append]

/-- The comma that only the tuple of one type has before its closing parenthesis. -/
theorem TypeExpr.chars_tuple (ts : List TypeExpr) :
    (TypeExpr.tuple ts).chars =
      '(' :: (TypeExpr.listChars ts ++ if ts.length = 1 then [','] else []) ++ [')'] := by
  match ts with
  | [] => rfl
  | [t] => simp [TypeExpr.chars, TypeExpr.listChars, TypeExpr.charsAfter]
  | t :: u :: ts => simp [TypeExpr.chars]

theorem TypeExpr.chars_array (inner : TypeExpr) (length : String) :
    (TypeExpr.array inner length).chars =
      '[' :: (inner.chars ++ "; ".toList ++ length.toList) ++ [']'] := by
  rw [TypeExpr.chars]
  simp only [List.cons_append, List.append_assoc]

/-- What is written of the type that a callable bound returns. -/
def TypeExpr.resultChars (result : Option TypeExpr) : List Char :=
  result.elim [] fun t => " -> ".toList ++ t.chars

theorem TypeExpr.chars_fnTrait (kind : String) (params : List TypeExpr)
    (result : Option TypeExpr) : (TypeExpr.fnTrait kind params result).chars =
      kind.toList ++ ('(' :: TypeExpr.listChars params ++ [')']) ++ TypeExpr.resultChars result := by
  cases result with
  | none => simp [TypeExpr.chars, TypeExpr.resultChars]
  | some t => simp [TypeExpr.chars, TypeExpr.resultChars]

end Written

/-- What may stand outside brackets in a written type: not what separates types, lengths or bodies. -/
def isTypeChar (c : Char) : Bool := c != ',' && c != ';' && c != '\x7b'

section Passes

variable {p : Char → Bool} {s : List Char}

theorem isWordChar_isTypeChar {c : Char} (h : isWordChar c = true) :
    ofOpener? c = none ∧ ofCloser? c = none ∧ c ≠ '-' ∧ isTypeChar c = true := by
  obtain ⟨ho, hc⟩ := not_bracket_of_isWordChar h
  refine ⟨ho, hc, ne_of_isWordChar h rfl, ?_⟩
  simp only [isTypeChar, Bool.and_eq_true, bne_iff_ne]
  exact ⟨⟨ne_of_isWordChar h rfl, ne_of_isWordChar h rfl⟩,
    ne_of_isWordChar h rfl⟩

theorem noComma_of_passes (h : Passes isTypeChar s) : Passes (· != ',') s :=
  h.mono fun c hc => by
    simp only [isTypeChar, Bool.and_eq_true] at hc
    exact hc.1.1

theorem noSemicolon_of_passes (h : Passes isTypeChar s) : Passes (· != ';') s :=
  h.mono fun c hc => by
    simp only [isTypeChar, Bool.and_eq_true] at hc
    exact hc.1.2

/-- Written pieces between commas are told apart. -/
theorem split_map_intercalate {α : Type} {f : α → List Char} {xs : List α}
    (hp : ∀ x ∈ xs, Passes isTypeChar (f x)) (ht : ∀ x ∈ xs, IsTight (f x)) :
    split ',' (", ".toList.intercalate (xs.map f)) = xs.map f := by
  apply split_intercalate
  · intro s hs
    obtain ⟨x, hx, rfl⟩ := List.mem_map.1 hs
    exact noComma_of_passes (hp x hx)
  · intro s hs
    obtain ⟨x, hx, rfl⟩ := List.mem_map.1 hs
    exact ht x hx

theorem passes_of_isIdentifier (h : isIdentifier s = true) : Passes isTypeChar s :=
  Passes.of_forall fun c hc => isWordChar_isTypeChar (forall_isWordChar_of_isIdentifier h c hc)

theorem IsPath.passes (h : IsPath s) : Passes isTypeChar s := by
  obtain ⟨first, more, hf, -, hm, rfl⟩ := h
  refine (passes_of_isIdentifier hf).append ?_
  induction more with
  | nil => exact Passes.nil
  | cons word more ih =>
    have hw := passes_of_isIdentifier (hm word List.mem_cons_self)
    have hc : Passes isTypeChar "::".toList := Passes.of_forall (by decide)
    rw [List.flatMap_cons]
    exact (hc.append hw).append (ih fun w hw => hm w (List.mem_cons_of_mem _ hw))

theorem IsLifetime.passes (h : IsLifetime s) : Passes isTypeChar s := by
  obtain ⟨word, hw, rfl⟩ := h
  have hq : Passes isTypeChar ['\''] := Passes.of_forall (by decide)
  exact hq.append (passes_of_isIdentifier hw)

theorem passes_intercalate {α : Type} {f : α → List Char} {as : List α} {sep : List Char}
    (hs : Passes p sep) (h : ∀ a ∈ as, Passes p (f a)) :
    Passes p (sep.intercalate (as.map f)) := by
  induction as with
  | nil => exact Passes.nil
  | cons a as ih =>
    have ha := h a List.mem_cons_self
    have hmore := ih fun b hb => h b (List.mem_cons_of_mem a hb)
    cases as with
    | nil => rwa [List.map_singleton, List.intercalate_singleton]
    | cons b as =>
      rw [List.map_cons, List.map_cons, List.intercalate_cons_cons]
      exact (ha.append hs).append hmore

/-- What is written between commas, as it stands in brackets. -/
theorem passes_list {α : Type} {f : α → List Char} {as : List α}
    (h : ∀ a ∈ as, Passes isTypeChar (f a)) :
    Passes (fun _ => true) (", ".toList.intercalate (as.map f)) := by
  apply passes_intercalate (Passes.of_forall (by decide))
  intro a ha
  exact (h a ha).mono fun _ _ => rfl

theorem passes_qualifierChars {lifetime : Option String} (isMutable : Bool)
    (h : ∀ l ∈ lifetime, IsLifetime l.toList) :
    Passes isTypeChar (Modifiers.qualifierChars lifetime isMutable) := by
  have hb : Passes isTypeChar [' '] := Passes.of_forall (by decide)
  have hm : Passes isTypeChar (if isMutable then Modifiers.mutWord ++ [' '] else []) := by
    cases isMutable
    · exact Passes.nil
    · exact Passes.of_forall (by decide)
  cases lifetime with
  | none => exact hm
  | some l => exact ((h l rfl).passes.append hb).append hm

end Passes

theorem isNested_listChars {ts : List TypeExpr} (h : ∀ t ∈ ts, Passes isTypeChar t.chars) :
    IsNested (TypeExpr.listChars ts) := by
  rw [TypeExpr.listChars_eq]
  exact (passes_list h).nested

theorem passes_boundChars {bounds : List GenericArg}
    (h : ∀ a ∈ bounds, Passes isTypeChar a.chars) :
    Passes isTypeChar (GenericArg.boundChars bounds) := by
  rw [GenericArg.boundChars_eq]
  exact passes_intercalate (Passes.of_forall (by decide)) h

theorem TypeExpr.BoundWord.passes {word : List Char} {build : List GenericArg → TypeExpr}
    (h : TypeExpr.BoundWord word build) {bounds : List GenericArg}
    (ha : ∀ a ∈ bounds, Passes isTypeChar a.chars) : Passes isTypeChar (build bounds).chars := by
  have hblank : Passes isTypeChar [' '] := Passes.of_forall (by decide)
  rw [h.chars_eq]
  exact (passes_of_isIdentifier h.isIdentifier).append (hblank.append (passes_boundChars ha))

theorem passes_resultChars {result : Option TypeExpr} (h : ∀ t ∈ result, Passes isTypeChar t.chars) :
    Passes isTypeChar (TypeExpr.resultChars result) := by
  have ha : Passes isTypeChar " -> ".toList := ⟨by decide, by decide, by decide⟩
  cases result with
  | none => exact Passes.nil
  | some t => exact ha.append (h t rfl)

mutual

/-- A written type passes every scanner as one unit. -/
theorem TypeExpr.WellFormed.passes {t : TypeExpr} : t.WellFormed → Passes isTypeChar t.chars
  | @TypeExpr.WellFormed.named name generics hp ha => by
    by_cases hg : generics = []
    · subst hg
      rw [TypeExpr.chars]
      exact hp.passes
    · have hi := passes_list fun a hm => (ha a hm).passes
      rw [TypeExpr.chars_named hg]
      exact hp.passes.append (Passes.enclose .angle hi.nested (fun _ => hi.last) (by decide))
  | .reference hl ht => by
    have hr : Passes isTypeChar ['&'] := Passes.of_forall (by decide)
    rw [TypeExpr.chars]
    exact (hr.append (passes_qualifierChars _ hl)).append ht.passes
  | .implBound _ ha => TypeExpr.BoundWord.impl.passes fun a h => (ha a h).passes
  | .dynBound _ ha => TypeExpr.BoundWord.dyn.passes fun a h => (ha a h).passes
  | @TypeExpr.WellFormed.tuple elements ht => by
    have hi := isNested_listChars fun t h => (ht t h).passes
    rw [TypeExpr.chars_tuple]
    refine Passes.enclose .round (hi.append ?_) (fun h => absurd h (by decide)) (by decide)
    split <;> decide
  | .slice ht => by
    rw [TypeExpr.chars]
    exact Passes.enclose .square ht.passes.nested (fun h => absurd h (by decide)) (by decide)
  | @TypeExpr.WellFormed.array inner length ht _ hn => by
    have hs : IsNested "; ".toList := by decide
    rw [TypeExpr.chars_array]
    exact Passes.enclose .square ((ht.passes.nested.append hs).append hn) (fun h => absurd h (by decide))
      (by decide)
  | @TypeExpr.WellFormed.pointer isMutable inner ht => by
    have hk : Passes isTypeChar (if isMutable then "*mut ".toList else "*const ".toList) := by
      cases isMutable <;> exact Passes.of_forall (by decide)
    rw [TypeExpr.chars]
    exact hk.append ht.passes
  | @TypeExpr.WellFormed.fnTrait kind params result hk ht hr => by
    have hw : Passes isTypeChar kind.toList := by
      simp only [callableKinds, List.mem_cons, List.not_mem_nil, or_false] at hk
      rcases hk with rfl | rfl | rfl <;> exact passes_of_isIdentifier (by decide)
    have hi := isNested_listChars fun t h => (ht t h).passes
    have hp : Passes isTypeChar ('(' :: TypeExpr.listChars params ++ [')']) :=
      Passes.enclose .round hi (fun h => absurd h (by decide)) (by decide)
    have hret := passes_resultChars fun t h => (hr t h).passes
    rw [TypeExpr.chars_fnTrait]
    exact (hw.append hp).append hret

theorem GenericArg.WellFormed.passes {a : GenericArg} : a.WellFormed → Passes isTypeChar a.chars
  | .type ht => by
    rw [GenericArg.chars]
    exact ht.passes
  | .lifetime hl => by
    rw [GenericArg.chars]
    exact hl.passes
  | .binding hw ht => by
    have he : Passes isTypeChar " = ".toList := Passes.of_forall (by decide)
    rw [GenericArg.chars]
    exact ((passes_of_isIdentifier hw).append he).append ht.passes

end

section Tight

theorem IsPath.tight {s : List Char} (h : IsPath s) : IsTight s := by
  obtain ⟨first, more, hf, -, hm, rfl⟩ := h
  have hfirst := IsTight.of_isIdentifier hf
  apply IsTight.of_forall (List.append_ne_nil_of_left_ne_nil hfirst.ne_nil _)
  intro c hc
  rw [List.mem_append, List.mem_flatMap] at hc
  rcases hc with hc | ⟨word, hw, hc⟩
  · exact isBlank_of_isWordChar (forall_isWordChar_of_isIdentifier hf c hc)
  · have hcolon : ∀ c ∈ "::".toList, isBlank c = false := by decide
    rcases List.mem_append.1 hc with hc | hc
    · exact hcolon c hc
    · exact isBlank_of_isWordChar (forall_isWordChar_of_isIdentifier (hm word hw) c hc)

theorem IsLifetime.tight {s : List Char} (h : IsLifetime s) : IsTight s := by
  obtain ⟨word, hw, rfl⟩ := h
  have hq : IsTight ['\''] := IsTight.of_forall (List.cons_ne_nil _ _) (by decide)
  exact hq.between [] (IsTight.of_isIdentifier hw)

theorem tight_of_mark {c : Char} (h : isBlank c = false) : IsTight [c] :=
  IsTight.of_forall (List.cons_ne_nil _ _) (by simpa using h)

theorem tight_boundChars {bounds : List GenericArg} (hb : bounds ≠ [])
    (h : ∀ a ∈ bounds, IsTight a.chars) : IsTight (GenericArg.boundChars bounds) := by
  rw [GenericArg.boundChars_eq]
  apply IsTight.intercalate (by simpa using hb)
  intro s hs
  obtain ⟨a, ha, rfl⟩ := List.mem_map.1 hs
  exact h a ha

theorem TypeExpr.BoundWord.tight {word : List Char} {build : List GenericArg → TypeExpr}
    (h : TypeExpr.BoundWord word build) {bounds : List GenericArg} (hb : bounds ≠ [])
    (ha : ∀ a ∈ bounds, IsTight a.chars) : IsTight (build bounds).chars := by
  rw [h.chars_eq, List.append_cons]
  exact (IsTight.of_isIdentifier h.isIdentifier).between [' '] (tight_boundChars hb ha)

mutual

/-- A written type begins and ends with no blank. -/
theorem TypeExpr.WellFormed.tight {t : TypeExpr} : t.WellFormed → IsTight t.chars
  | @TypeExpr.WellFormed.named name generics hp _ => by
    by_cases hg : generics = []
    · subst hg
      rw [TypeExpr.chars]
      exact hp.tight
    · rw [TypeExpr.chars_named hg, ← List.append_assoc]
      exact hp.tight.between _ (tight_of_mark (by decide))
  | .reference _ ht => by
    rw [TypeExpr.chars]
    exact (tight_of_mark (c := '&') (by decide)).between _ ht.tight
  | .implBound hl ha => TypeExpr.BoundWord.impl.tight hl.nonempty fun a h => (ha a h).tight
  | .dynBound hl ha => TypeExpr.BoundWord.dyn.tight hl.nonempty fun a h => (ha a h).tight
  | .tuple _ => by
    rw [TypeExpr.chars_tuple]
    exact (tight_of_mark (c := '(') (by decide)).between _ (tight_of_mark (by decide))
  | .slice _ => by
    rw [TypeExpr.chars]
    exact (tight_of_mark (c := '[') (by decide)).between _ (tight_of_mark (by decide))
  | .array .. => by
    rw [TypeExpr.chars_array]
    exact (tight_of_mark (c := '[') (by decide)).between _ (tight_of_mark (by decide))
  | @TypeExpr.WellFormed.pointer isMutable inner ht => by
    have hm : IsTight (if isMutable then "*mut".toList else "*const".toList) := by
      cases isMutable <;> exact IsTight.of_forall (by decide) (by decide)
    rw [TypeExpr.chars]
    cases isMutable <;> exact hm.between [' '] ht.tight
  | @TypeExpr.WellFormed.fnTrait kind params result hk _ hr => by
    have hw : IsTight kind.toList := by
      simp only [callableKinds, List.mem_cons, List.not_mem_nil, or_false] at hk
      rcases hk with rfl | rfl | rfl <;> exact IsTight.of_isIdentifier (by decide)
    rw [TypeExpr.chars_fnTrait]
    cases result with
    | none =>
      rw [TypeExpr.resultChars, Option.elim_none, List.append_nil, ← List.append_assoc]
      exact hw.between _ (tight_of_mark (by decide))
    | some t =>
      rw [TypeExpr.resultChars, Option.elim_some, ← List.append_assoc, List.append_assoc kind.toList]
      exact hw.between _ (hr t rfl).tight

theorem GenericArg.WellFormed.tight {a : GenericArg} : a.WellFormed → IsTight a.chars
  | .type ht => by
    rw [GenericArg.chars]
    exact ht.tight
  | .lifetime hl => by
    rw [GenericArg.chars]
    exact hl.tight
  | .binding hw ht => by
    rw [GenericArg.chars]
    exact (IsTight.of_isIdentifier hw).between _ ht.tight

end

end Tight

end ApiSurface
