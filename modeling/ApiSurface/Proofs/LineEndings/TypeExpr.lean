import ApiSurface.Proofs.LineEndings.TopLevel
import ApiSurface.Proofs.TypeExpr.Level

namespace ApiSurface

open Text TopLevel

mutual

def TypeExpr.crlf : TypeExpr → TypeExpr
  | .named name generics => .named name (GenericArg.crlfAll generics)
  | .reference isMutable lifetime inner => .reference isMutable lifetime inner.crlf
  | .implBound bounds => .implBound (GenericArg.crlfAll bounds)
  | .dynBound bounds => .dynBound (GenericArg.crlfAll bounds)
  | .tuple elements => .tuple (TypeExpr.crlfAll elements)
  | .slice inner => .slice inner.crlf
  | .array inner length => .array inner.crlf (crlfString length)
  | .pointer isMutable inner => .pointer isMutable inner.crlf
  | .fnTrait kind params none => .fnTrait kind (TypeExpr.crlfAll params) none
  | .fnTrait kind params (some result) => .fnTrait kind (TypeExpr.crlfAll params) (some result.crlf)
termination_by structural t => t

def GenericArg.crlf : GenericArg → GenericArg
  | .type type => .type type.crlf
  | .lifetime name => .lifetime name
  | .binding name type => .binding name type.crlf
termination_by structural a => a

def TypeExpr.crlfAll : List TypeExpr → List TypeExpr
  | [] => []
  | t :: ts => t.crlf :: TypeExpr.crlfAll ts
termination_by structural ts => ts

def GenericArg.crlfAll : List GenericArg → List GenericArg
  | [] => []
  | a :: as => a.crlf :: GenericArg.crlfAll as
termination_by structural as => as

end

-- Their equations too are made once, before the proofs that ask for them.
attribute [grind =] TypeExpr.crlf GenericArg.crlf

/-- `t'` is `t` with the other line endings, and so it is written. -/
structure TypeExpr.SameLines (t t' : TypeExpr) : Prop where
  eq : t' = t.crlf
  chars : t'.chars = Text.crlf t.chars

structure GenericArg.SameLines (a a' : GenericArg) : Prop where
  eq : a' = a.crlf
  chars : a'.chars = Text.crlf a.chars

/-- A word read from one text is the word read from the other. -/
def SameWord (word word' : List Char) : Prop := word' = word ∧ IsUnbroken word

section Lists

variable {ts ts' : List TypeExpr} {as as' : List GenericArg}

theorem TypeExpr.crlfAll_of_sameLines (h : List.Forall₂ TypeExpr.SameLines ts ts') :
    ts' = TypeExpr.crlfAll ts := by
  induction h with
  | nil => rfl
  | cons ht _ ih => rw [TypeExpr.crlfAll, ht.eq, ih]

theorem GenericArg.crlfAll_of_sameLines (h : List.Forall₂ GenericArg.SameLines as as') :
    as' = GenericArg.crlfAll as := by
  induction h with
  | nil => rfl
  | cons ha _ ih => rw [GenericArg.crlfAll, ha.eq, ih]

theorem TypeExpr.charsAfter_of_sameLines (h : List.Forall₂ TypeExpr.SameLines ts ts') :
    TypeExpr.charsAfter ts' = Text.crlf (TypeExpr.charsAfter ts) := by
  have hsep : Text.crlf ", ".toList = ", ".toList := crlf_eq_self (by decide)
  induction h with
  | nil => rfl
  | cons ht _ ih =>
    rw [TypeExpr.charsAfter, TypeExpr.charsAfter, crlf_append, crlf_append, hsep, ht.chars, ih]

theorem TypeExpr.listChars_of_sameLines (h : List.Forall₂ TypeExpr.SameLines ts ts') :
    TypeExpr.listChars ts' = Text.crlf (TypeExpr.listChars ts) := by
  cases h with
  | nil => rfl
  | cons ht hts =>
    rw [TypeExpr.listChars, TypeExpr.listChars, crlf_append, ht.chars,
      TypeExpr.charsAfter_of_sameLines hts]

theorem GenericArg.charsAfter_of_sameLines (h : List.Forall₂ GenericArg.SameLines as as')
    {sep : List Char} (hsep : '\n' ∉ sep) :
    GenericArg.charsAfter sep as' = Text.crlf (GenericArg.charsAfter sep as) := by
  induction h with
  | nil => rfl
  | cons ha _ ih =>
    rw [GenericArg.charsAfter, GenericArg.charsAfter, crlf_append, crlf_append, crlf_eq_self hsep,
      ha.chars, ih]

theorem GenericArg.boundChars_of_sameLines (h : List.Forall₂ GenericArg.SameLines as as') :
    GenericArg.boundChars as' = Text.crlf (GenericArg.boundChars as) := by
  cases h with
  | nil => rfl
  | cons ha has =>
    rw [GenericArg.boundChars, GenericArg.boundChars, crlf_append, ha.chars,
      GenericArg.charsAfter_of_sameLines has (by decide)]

end Lists

namespace TypeExpr.SameLines

variable {name : String} {t t' : TypeExpr} {ts ts' : List TypeExpr} {as as' : List GenericArg}

theorem named (hn : '\n' ∉ name.toList) (h : List.Forall₂ GenericArg.SameLines as as') :
    (TypeExpr.named name as).SameLines (.named name as') := by
  refine ⟨by rw [TypeExpr.crlf, GenericArg.crlfAll_of_sameLines h], ?_⟩
  cases h with
  | nil => rw [TypeExpr.chars, crlf_eq_self hn]
  | cons ha has =>
    rw [TypeExpr.chars, TypeExpr.chars, GenericArg.charsAfter_of_sameLines has (by decide),
      ha.chars]
    simp [crlf_eq_self hn]

theorem reference {lifetime : Option String} (hl : ∀ l ∈ lifetime, '\n' ∉ l.toList)
    (isMutable : Bool) (h : t.SameLines t') :
    (TypeExpr.reference isMutable lifetime t).SameLines (.reference isMutable lifetime t') := by
  have hq : '\n' ∉ Modifiers.qualifierChars lifetime isMutable := by
    unfold Modifiers.qualifierChars
    intro hm
    rcases List.mem_append.1 hm with hm | hm
    · cases lifetime with
      | none => exact absurd hm List.not_mem_nil
      | some l =>
        rcases List.mem_append.1 hm with hm | hm
        · exact hl l rfl hm
        · exact absurd hm (by decide)
    · cases isMutable <;> exact absurd hm (by decide)
  refine ⟨by rw [TypeExpr.crlf, h.eq], ?_⟩
  rw [TypeExpr.chars, TypeExpr.chars, h.chars]
  simp [crlf_eq_self hq]

theorem bounded {word : List Char} {build : List GenericArg → TypeExpr} (hb : BoundWord word build)
    (h : List.Forall₂ GenericArg.SameLines as as') : (build as).SameLines (build as') := by
  have hcrlf : (build as).crlf = build (GenericArg.crlfAll as) := by
    cases hb <;> rw [TypeExpr.crlf]
  have hword : '\n' ∉ word := by cases hb <;> decide
  refine ⟨by rw [hcrlf, GenericArg.crlfAll_of_sameLines h], ?_⟩
  rw [hb.chars_eq, hb.chars_eq, GenericArg.boundChars_of_sameLines h, crlf_append,
    crlf_eq_self hword]
  simp

theorem tuple (h : List.Forall₂ TypeExpr.SameLines ts ts') :
    (TypeExpr.tuple ts).SameLines (.tuple ts') := by
  refine ⟨by rw [TypeExpr.crlf, TypeExpr.crlfAll_of_sameLines h], ?_⟩
  have hlist := TypeExpr.listChars_of_sameLines h
  cases h with
  | nil => rfl
  | cons ht hts =>
    cases hts with
    | nil =>
      rw [TypeExpr.chars, TypeExpr.chars, ht.chars]
      simp
    | cons hu hus =>
      rw [TypeExpr.chars, TypeExpr.chars, hlist]
      · simp
      · simp
      · simp

theorem slice (h : t.SameLines t') : (TypeExpr.slice t).SameLines (.slice t') := by
  refine ⟨by rw [TypeExpr.crlf, h.eq], ?_⟩
  simp [TypeExpr.chars, h.chars]

theorem array (h : t.SameLines t') (length : List Char) :
    (TypeExpr.array t (String.ofList length)).SameLines
      (.array t' (String.ofList (Text.crlf length))) := by
  refine ⟨by rw [TypeExpr.crlf, h.eq, crlfString_ofList], ?_⟩
  simp [TypeExpr.chars, h.chars]

theorem pointer (isMutable : Bool) (h : t.SameLines t') :
    (TypeExpr.pointer isMutable t).SameLines (.pointer isMutable t') := by
  refine ⟨by rw [TypeExpr.crlf, h.eq], ?_⟩
  rw [TypeExpr.chars, TypeExpr.chars, h.chars, crlf_append, crlf_eq_self (s := ite _ _ _)]
  cases isMutable <;> decide

theorem fnTrait (hn : '\n' ∉ name.toList) (h : List.Forall₂ TypeExpr.SameLines ts ts')
    {result result' : Option TypeExpr} (hr : Option.Rel TypeExpr.SameLines result result') :
    (TypeExpr.fnTrait name ts result).SameLines (.fnTrait name ts' result') := by
  have hlist := TypeExpr.listChars_of_sameLines h
  cases hr with
  | none =>
    refine ⟨by rw [TypeExpr.crlf, TypeExpr.crlfAll_of_sameLines h], ?_⟩
    rw [TypeExpr.chars, TypeExpr.chars, hlist]
    simp [crlf_eq_self hn]
  | some hr =>
    refine ⟨by rw [TypeExpr.crlf, TypeExpr.crlfAll_of_sameLines h, hr.eq], ?_⟩
    rw [TypeExpr.chars, TypeExpr.chars, hlist, hr.chars]
    simp [crlf_eq_self hn]

end TypeExpr.SameLines

namespace GenericArg.SameLines

variable {name : String} {t t' : TypeExpr}

theorem type (h : t.SameLines t') : (GenericArg.type t).SameLines (.type t') :=
  ⟨by rw [GenericArg.crlf, h.eq], by rw [GenericArg.chars, GenericArg.chars, h.chars]⟩

theorem lifetime (hn : '\n' ∉ name.toList) :
    (GenericArg.lifetime name).SameLines (.lifetime name) :=
  ⟨rfl, by rw [GenericArg.chars, crlf_eq_self hn]⟩

theorem binding (hn : '\n' ∉ name.toList) (h : t.SameLines t') :
    (GenericArg.binding name t).SameLines (.binding name t') := by
  refine ⟨by rw [GenericArg.crlf, h.eq], ?_⟩
  rw [GenericArg.chars, GenericArg.chars, h.chars]
  simp [crlf_eq_self hn]

end GenericArg.SameLines

end ApiSurface
