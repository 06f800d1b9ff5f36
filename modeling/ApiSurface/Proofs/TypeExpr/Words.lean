import ApiSurface.Proofs.Nesting.Keyword
import ApiSurface.Proofs.TypeExpr.WellFormed

namespace ApiSurface

open Text TopLevel
open ApiSurface.Bracket (Passes)

/-- The segments of a path, which colons stand between. -/
def pathSegments (path : List Char) : List (List Char) :=
  (path.splitOn ':').filter (!·.isEmpty)

/-- The name of a lifetime, without its quote. -/
def lifetimeName (lifetime : String) : List Char := lifetime.toList.tail

mutual

def TypeExpr.words : TypeExpr → List (List Char)
  | .named name generics => pathSegments name.toList ++ GenericArg.wordsAll generics
  | .reference _ lifetime inner => lifetime.toList.map lifetimeName ++ inner.words
  | .implBound bounds | .dynBound bounds => GenericArg.wordsAll bounds
  | .tuple elements => TypeExpr.wordsAll elements
  | .slice inner | .array inner _ | .pointer _ inner => inner.words
  | .fnTrait _ params none => TypeExpr.wordsAll params
  | .fnTrait _ params (some result) => TypeExpr.wordsAll params ++ result.words
termination_by structural t => t

def GenericArg.words : GenericArg → List (List Char)
  | .type type => type.words
  | .lifetime name => [lifetimeName name]
  | .binding name type => name.toList :: type.words
termination_by structural a => a

def TypeExpr.wordsAll : List TypeExpr → List (List Char)
  | [] => []
  | t :: rest => t.words ++ TypeExpr.wordsAll rest
termination_by structural ts => ts

def GenericArg.wordsAll : List GenericArg → List (List Char)
  | [] => []
  | a :: rest => a.words ++ GenericArg.wordsAll rest
termination_by structural as => as

end

attribute [grind =] TypeExpr.words GenericArg.words

/-- The words that forms of types are written with. -/
def formWords : List (List Char) :=
  ["impl".toList, "dyn".toList, "mut".toList, "const".toList] ++ callableKinds.map String.toList

/-- A word that no form of a type is written with. -/
structure IsForeign (kw : List Char) : Prop where
  word : isIdentifier kw = true
  plain : kw ∉ formWords

theorem GenericArg.forall_not_mem_words {kw : List Char} {as : List GenericArg}
    (h : kw ∉ GenericArg.wordsAll as) : ∀ a ∈ as, kw ∉ a.words := by
  induction as with
  | nil => exact List.forall_mem_nil _
  | cons a as ih =>
    rw [GenericArg.wordsAll, List.mem_append, not_or] at h
    exact List.forall_mem_cons.2 ⟨h.1, ih h.2⟩

/-- The segments of a path are the identifiers that it is made of. -/
theorem pathSegments_eq {first : List Char} {more : List (List Char)}
    (hf : isIdentifier first = true) (hm : ∀ word ∈ more, isIdentifier word = true) :
    pathSegments (first ++ more.flatMap ("::".toList ++ ·)) = first :: more := by
  have hcolon {word : List Char} (hw : isIdentifier word = true) : ':' ∉ word := by
    intro hc
    exact absurd (forall_isWordChar_of_isIdentifier hw ':' hc) (by decide)
  have hkept {word : List Char} (hw : isIdentifier word = true) (rest : List (List Char)) :
      (word :: rest).filter (!·.isEmpty) = word :: rest.filter (!·.isEmpty) :=
    List.filter_cons_of_pos (by simpa using (IsTight.of_isIdentifier hw).ne_nil)
  induction more generalizing first with
  | nil =>
    rw [List.flatMap_nil, List.append_nil, pathSegments, List.splitOn_eq_singleton (hcolon hf),
      hkept hf, List.filter_nil]
  | cons word more ih =>
    have hmore := ih (hm word List.mem_cons_self) fun w hw => hm w (List.mem_cons_of_mem _ hw)
    have hsplit : (first ++ ((word :: more).flatMap ("::".toList ++ ·))).splitOn ':' =
        first :: [] :: (word ++ more.flatMap ("::".toList ++ ·)).splitOn ':' := by
      rw [List.flatMap_cons, List.append_assoc]
      change (first ++ ':' :: ([] ++ ':' :: _)).splitOn ':' = _
      rw [List.splitOn_append_cons_self, List.splitOn_append_cons_self,
        List.splitOn_eq_singleton (hcolon hf)]
      rfl
    rw [pathSegments, hsplit, hkept hf, ← hmore]
    rfl

theorem continuesWord_segments (more : List (List Char)) :
    continuesWord (more.flatMap ("::".toList ++ ·)) = false := by
  cases more <;> rfl

namespace LacksWord

variable {kw s : List Char} (hk : isIdentifier kw = true)
include hk

theorem segments {more : List (List Char)} (hm : ∀ word ∈ more, isIdentifier word = true)
    (hn : kw ∉ more) : LacksWord kw (more.flatMap ("::".toList ++ ·)) := by
  induction more with
  | nil => exact nil
  | cons word more ih =>
    rw [List.mem_cons, not_or] at hn
    have hcolons : Passes endsWord "::".toList := Passes.of_forall (by decide)
    have hword := of_isIdentifier hk (hm word List.mem_cons_self) (Ne.symm hn.1)
    have hmore := ih (fun w hw => hm w (List.mem_cons_of_mem _ hw)) hn.2
    rw [List.flatMap_cons, List.append_assoc]
    exact passes_append hk hcolons (hword.append hk hmore (continuesWord_segments more))

theorem of_isPath (hs : IsPath s) (hn : kw ∉ pathSegments s) : LacksWord kw s := by
  obtain ⟨first, more, hf, -, hm, rfl⟩ := hs
  rw [pathSegments_eq hf hm, List.mem_cons, not_or] at hn
  exact (of_isIdentifier hk hf (Ne.symm hn.1)).append hk (segments hk hm hn.2)
    (continuesWord_segments more)

theorem of_isLifetime {lifetime : String} (h : IsLifetime lifetime.toList)
    (hn : kw ≠ lifetimeName lifetime) : LacksWord kw lifetime.toList := by
  obtain ⟨word, hw, he⟩ := h
  have hquote : Passes endsWord ['\''] := Passes.of_forall (by decide)
  rw [lifetimeName, he, List.tail_cons] at hn
  rw [he]
  exact passes_append hk hquote (of_isIdentifier hk hw (Ne.symm hn))

theorem boundChars {bounds : List GenericArg} (h : ∀ a ∈ bounds, LacksWord kw a.chars) :
    LacksWord kw (GenericArg.boundChars bounds) := by
  have hplus : Passes endsWord " + ".toList := Passes.of_forall (by decide)
  rw [GenericArg.boundChars_eq]
  exact intercalate hk hplus (fun _ => rfl) h

theorem resultChars {result : Option TypeExpr} (h : ∀ t ∈ result, LacksWord kw t.chars) :
    LacksWord kw (TypeExpr.resultChars result) := by
  have harrow : Passes endsWord " -> ".toList := ⟨by decide, by decide, by decide⟩
  cases result with
  | none => exact nil
  | some t => exact passes_append hk harrow (h t rfl)

omit hk

/-- A form word with a blank after it. -/
theorem form_append (hk : IsForeign kw) {w : List Char} (hw : isIdentifier w = true)
    (hm : w ∈ formWords) (hs : LacksWord kw s) : LacksWord kw (w ++ ' ' :: s) :=
  word_blank_append hk.word hw (fun he => hk.plain (he ▸ hm)) hs

theorem bound (hk : IsForeign kw) {word : List Char} {build : List GenericArg → TypeExpr}
    (hb : TypeExpr.BoundWord word build) {bounds : List GenericArg}
    (h : ∀ a ∈ bounds, LacksWord kw a.chars) : LacksWord kw (build bounds).chars := by
  have hform : word ∈ formWords := by cases hb <;> decide
  rw [hb.chars_eq]
  exact form_append hk hb.isIdentifier hform (boundChars hk.word h)

/-- The lifetime and the word `mut` in front of a type. -/
theorem qualifierChars_append (hk : IsForeign kw) {lifetime : Option String} (isMutable : Bool)
    (hl : ∀ l ∈ lifetime, IsLifetime l.toList) (hn : kw ∉ lifetime.toList.map lifetimeName)
    (hs : LacksWord kw s) : LacksWord kw (Modifiers.qualifierChars lifetime isMutable ++ s) := by
  have hmut : LacksWord kw ((if isMutable then Modifiers.mutWord ++ [' '] else []) ++ s) := by
    cases isMutable
    · exact hs
    · exact form_append hk (w := Modifiers.mutWord) rfl (by decide) hs
  rw [Modifiers.qualifierChars, List.append_assoc]
  cases lifetime with
  | none => exact hmut
  | some l =>
    have hblank : Passes endsWord [' '] := Passes.of_forall (by decide)
    have hlife := of_isLifetime hk.word (hl l rfl) (by simpa using hn)
    rw [Option.elim_some, List.append_assoc]
    exact hlife.append hk.word (passes_append hk.word hblank hmut) rfl

end LacksWord

section Lacks

variable {kw : List Char} (hk : IsForeign kw)
include hk

mutual

/-- A word that is no word of a type stands nowhere outside brackets in it. -/
theorem TypeExpr.WellFormed.lacksWord {t : TypeExpr} :
    t.WellFormed → kw ∉ t.words → LacksWord kw t.chars
  | @TypeExpr.WellFormed.named name generics hp ha, hn => by
    rw [TypeExpr.words, List.mem_append, not_or] at hn
    have hpath := LacksWord.of_isPath hk.word hp hn.1
    by_cases hg : generics = []
    · subst hg
      rw [TypeExpr.chars]
      exact hpath
    · have hi := passes_list fun a hm => (ha a hm).passes
      have hargs := LacksWord.of_passes hk.word
        (Passes.enclose .angle hi.nested (fun _ => hi.last) (by decide))
      rw [TypeExpr.chars_named hg]
      exact hpath.append hk.word hargs rfl
  | .reference hl ht, hn => by
    rw [TypeExpr.words, List.mem_append, not_or] at hn
    have hmark : Passes endsWord ['&'] := Passes.of_forall (by decide)
    rw [TypeExpr.chars, List.cons_append]
    exact LacksWord.passes_append hk.word hmark
      (LacksWord.qualifierChars_append hk _ hl hn.1 (ht.lacksWord hn.2))
  | .implBound _ ha, hn => by
    rw [TypeExpr.words] at hn
    exact LacksWord.bound hk .impl fun a hm =>
      (ha a hm).lacksWord (GenericArg.forall_not_mem_words hn a hm)
  | .dynBound _ ha, hn => by
    rw [TypeExpr.words] at hn
    exact LacksWord.bound hk .dyn fun a hm =>
      (ha a hm).lacksWord (GenericArg.forall_not_mem_words hn a hm)
  | @TypeExpr.WellFormed.tuple elements ht, _ => by
    have hi := isNested_listChars fun t h => (ht t h).passes
    rw [TypeExpr.chars_tuple]
    refine LacksWord.of_passes hk.word
      (Passes.enclose .round (hi.append ?_) (fun h => absurd h (by decide)) (by decide))
    split <;> decide
  | .slice ht, _ => by
    rw [TypeExpr.chars]
    exact LacksWord.of_passes hk.word
      (Passes.enclose .square ht.passes.nested (fun h => absurd h (by decide)) (by decide))
  | @TypeExpr.WellFormed.array inner length ht _ hlength, _ => by
    have hs : Bracket.IsNested "; ".toList := by decide
    rw [TypeExpr.chars_array]
    exact LacksWord.of_passes hk.word (Passes.enclose .square
      ((ht.passes.nested.append hs).append hlength) (fun h => absurd h (by decide)) (by decide))
  | @TypeExpr.WellFormed.pointer isMutable inner ht, hn => by
    rw [TypeExpr.words] at hn
    have hmark : Passes endsWord ['*'] := Passes.of_forall (by decide)
    have hmut := LacksWord.form_append hk (w := "mut".toList) rfl (by decide) (ht.lacksWord hn)
    have hconst := LacksWord.form_append hk (w := "const".toList) rfl (by decide)
      (ht.lacksWord hn)
    rw [TypeExpr.chars]
    cases isMutable
    · exact LacksWord.passes_append (s := ['*']) hk.word hmark hconst
    · exact LacksWord.passes_append (s := ['*']) hk.word hmark hmut
  | @TypeExpr.WellFormed.fnTrait kind params result hkind ht hr, hn => by
    have hresult : LacksWord kw (TypeExpr.resultChars result) := by
      apply LacksWord.resultChars hk.word
      intro t hm
      obtain rfl : result = some t := hm
      rw [TypeExpr.words, List.mem_append, not_or] at hn
      exact (hr t rfl).lacksWord hn.2
    have hword : LacksWord kw kind.toList := by
      have hne : kind.toList ≠ kw := by
        rintro rfl
        exact hk.plain (List.mem_append_right _ (List.mem_map_of_mem hkind))
      simp only [callableKinds, List.mem_cons, List.not_mem_nil, or_false] at hkind
      rcases hkind with rfl | rfl | rfl <;> exact LacksWord.of_isIdentifier hk.word (by decide) hne
    have hi := isNested_listChars fun t h => (ht t h).passes
    have hparams := Passes.enclose .round hi (fun h => absurd h (by decide))
      (p := endsWord) (by decide)
    rw [TypeExpr.chars_fnTrait, List.append_assoc]
    exact hword.append hk.word (LacksWord.passes_append hk.word hparams hresult) rfl

theorem GenericArg.WellFormed.lacksWord {a : GenericArg} :
    a.WellFormed → kw ∉ a.words → LacksWord kw a.chars
  | .type ht, hn => by
    rw [GenericArg.words] at hn
    rw [GenericArg.chars]
    exact ht.lacksWord hn
  | .lifetime hl, hn => by
    rw [GenericArg.words, List.mem_singleton] at hn
    rw [GenericArg.chars]
    exact LacksWord.of_isLifetime hk.word hl hn
  | .binding hw ht, hn => by
    rw [GenericArg.words, List.mem_cons, not_or] at hn
    have hequals : Passes endsWord " = ".toList := Passes.of_forall (by decide)
    have hname := LacksWord.of_isIdentifier hk.word hw (Ne.symm hn.1)
    rw [GenericArg.chars, List.append_assoc]
    exact hname.append hk.word (LacksWord.passes_append hk.word hequals (ht.lacksWord hn.2)) rfl

end

end Lacks

end ApiSurface
