import ApiSurface.Proofs.TypeExpr.WellFormed

namespace ApiSurface

open Text TopLevel

/-- What may follow a written type so that none of it is taken for a part of it. -/
structure Stops (isOpen : Bool) (post : List Char) : Prop where
  word : continuesWord post = false
  mark : ∀ c ∈ (trimStart post).head?, c ∉ ['<', '(', ':', '-']
  plus : isOpen = true → (trimStart post).head? ≠ some '+'

namespace Stops

variable {isOpen : Bool} {post : List Char}

theorem mono (h : Stops true post) : Stops isOpen post := ⟨h.word, h.mark, fun _ => h.plus rfl⟩

theorem head?_ne_colon (h : Stops isOpen post) : post.head? ≠ some ':' := by
  cases post with
  | nil => simp
  | cons c post =>
    intro hc
    obtain rfl : c = ':' := Option.some.inj hc
    exact h.mark ':' (by rw [trimStart_cons rfl]; rfl) (by decide)

/-- A plus sign after a type that is not open goes on the list in which the type stands. -/
theorem plus_sign (rest : List Char) : Stops false (" + ".toList ++ rest) := by
  have ht : trimStart (" + ".toList ++ rest) = '+' :: ' ' :: rest := by
    rw [show " + ".toList ++ rest = ' ' :: '+' :: ' ' :: rest from rfl,
      trimStart_cons_blank rfl, trimStart_cons rfl]
  refine ⟨rfl, ?_, by simp⟩
  rw [ht]
  intro c hc
  obtain rfl : '+' = c := Option.some.inj hc
  decide

/-- A comma goes on no type. -/
theorem comma (rest : List Char) : Stops isOpen (',' :: rest) := by
  have ht : trimStart (',' :: rest) = ',' :: rest := trimStart_cons rfl
  refine ⟨rfl, ?_, fun _ => ?_⟩
  · rw [ht]
    rintro c ⟨⟩
    decide
  · rw [ht]
    simp

/-- White space up to the end goes on no type. -/
theorem blank {s : List Char} (hs : isBlankText s = true) : Stops isOpen s := by
  have ht : trimStart s = [] := trimStart_eq_nil_iff.2 hs
  exact ⟨continuesWord_of_isBlankText hs, by simp [ht], by simp [ht]⟩

theorem nil : Stops isOpen [] := blank rfl

/-- White space in front of what goes on no type changes nothing. -/
theorem blank_append {gap : List Char} (hb : isBlankText gap = true) (h : Stops isOpen post) :
    Stops isOpen (gap ++ post) := by
  refine ⟨continuesWord_append (continuesWord_of_isBlankText hb) h.word, ?_, ?_⟩
  · rw [trimStart_blank_append hb]
    exact h.mark
  · rw [trimStart_blank_append hb]
    exact h.plus

end Stops

section Path

variable {s post : List Char}

theorem pathChars_word_append (hs : ∀ c ∈ s, isWordChar c = true) (post : List Char) :
    pathChars (s ++ post) = (pathChars post).map (s ++ ·) id := by
  induction s with
  | nil => rfl
  | cons c s ih =>
    have hc := hs c List.mem_cons_self
    have hcolon : c ≠ ':' := ne_of_isWordChar hc rfl
    rw [List.cons_append, pathChars]
    · rw [if_pos hc, ih fun d hd => hs d (List.mem_cons_of_mem _ hd)]
      rfl
    · intro _ _ h
      exact absurd h hcolon

theorem pathChars_of_stops (hw : continuesWord post = false) (hc : post.head? ≠ some ':') :
    pathChars post = ([], post) := by
  cases post with
  | nil => rfl
  | cons c post =>
    have hcolon : c ≠ ':' := by
      intro h
      rw [h] at hc
      exact hc rfl
    have hword : isWordChar c = false := hw
    rw [pathChars]
    · simp [hword]
    · intro _ _ h
      exact absurd h hcolon

theorem pathChars_segments {more : List (List Char)}
    (hm : ∀ word ∈ more, isIdentifier word = true) (hw : continuesWord post = false)
    (hc : post.head? ≠ some ':') :
    pathChars (more.flatMap ("::".toList ++ ·) ++ post) =
      (more.flatMap ("::".toList ++ ·), post) := by
  induction more with
  | nil => exact pathChars_of_stops hw hc
  | cons word more ih =>
    have hword := hm word List.mem_cons_self
    have hmore := ih fun w h => hm w (List.mem_cons_of_mem _ h)
    cases word with
    | nil => cases hword
    | cons c word =>
      have hall := forall_isWordChar_of_isIdentifier hword
      have hstart : isWordStart c = true := by
        simp only [isIdentifier, Bool.and_eq_true] at hword
        exact hword.1
      have hrest := pathChars_word_append (fun d hd => hall d (List.mem_cons_of_mem _ hd))
        (more.flatMap ("::".toList ++ ·) ++ post)
      rw [hmore] at hrest
      have hl : (((c :: word) :: more).flatMap ("::".toList ++ ·) ++ post) =
          ':' :: ':' :: c :: (word ++ (more.flatMap ("::".toList ++ ·) ++ post)) := by
        simp
      rw [hl, pathChars, if_pos hstart, hrest]
      simp

/-- Segments are read back whole wherever neither a word nor a colon goes on with them. -/
theorem readPath_segments {first : List Char} {more : List (List Char)}
    (hf : isIdentifier first = true) (hm : ∀ word ∈ more, isIdentifier word = true)
    (hw : continuesWord post = false) (hc : post.head? ≠ some ':') :
    readPath (first ++ more.flatMap ("::".toList ++ ·) ++ post) =
      .ok (first ++ more.flatMap ("::".toList ++ ·), post) := by
  cases first with
  | nil => cases hf
  | cons c word =>
    have hall := forall_isWordChar_of_isIdentifier hf
    have hstart : isWordStart c = true := by
      simp only [isIdentifier, Bool.and_eq_true] at hf
      exact hf.1
    have hstrip (rest : List Char) : strip? "::".toList (c :: rest) = none := by
      have hcolon : ':' ≠ c := by
        intro hcolon
        rw [← hcolon] at hstart
        cases hstart
      simp [strip?, hcolon]
    have hrest := pathChars_word_append (fun d hd => hall d (List.mem_cons_of_mem _ hd))
      (more.flatMap ("::".toList ++ ·) ++ post)
    rw [pathChars_segments hm hw hc] at hrest
    rw [readPath, List.append_assoc, List.cons_append, hstrip, Option.getD_none, readPlainPath,
      if_pos hstart, hrest]
    rfl

theorem readPath_append (hs : IsPath s) (hw : continuesWord post = false)
    (hc : post.head? ≠ some ':') : readPath (s ++ post) = .ok (s, post) := by
  obtain ⟨first, more, hf, -, hm, rfl⟩ := hs
  exact readPath_segments hf hm hw hc

/-- The words that begin other forms are not found in front of a path. -/
theorem IsPath.keyword?_eq_none {kw : List Char} (hs : IsPath s) (hk : kw ∈ reservedWords)
    (hw : continuesWord post = false) : keyword? kw (s ++ post) = none := by
  obtain ⟨first, more, hf, hr, hm, rfl⟩ := hs
  have hkw : ∀ c ∈ kw, isWordChar c = true := by
    simp only [reservedWords, List.mem_cons, List.not_mem_nil, or_false] at hk
    rcases hk with rfl | rfl | rfl <;> decide
  rw [List.append_assoc]
  refine keyword?_eq_none_of_ne hkw (forall_isWordChar_of_isIdentifier hf) ?_ ?_
  · cases more with
    | nil => exact hw
    | cons word more => rfl
  · intro hfirst
    rw [hfirst] at hr
    exact hr hk

theorem IsPath.first (hs : IsPath s) : ∃ c rest, s = c :: rest ∧ isWordStart c = true := by
  obtain ⟨first, more, hf, -, -, rfl⟩ := hs
  cases first with
  | nil => cases hf
  | cons c word =>
    simp only [isIdentifier, Bool.and_eq_true] at hf
    exact ⟨c, word ++ more.flatMap ("::".toList ++ ·), rfl, hf.1⟩

theorem isPath_of_callable {kind : String} (h : kind ∈ callableKinds) : IsPath kind.toList := by
  have hk : isIdentifier kind.toList = true ∧ kind.toList ∉ reservedWords := by
    simp only [callableKinds, List.mem_cons, List.not_mem_nil, or_false] at h
    rcases h with rfl | rfl | rfl <;> decide
  exact ⟨kind.toList, [], hk.1, hk.2, by simp, by simp⟩

end Path

section First

/-- The characters that written types begin with and words do not. -/
def typeMarks : List Char := ['&', '*', '(', '[']

theorem TypeExpr.WellFormed.first {t : TypeExpr} (h : t.WellFormed) :
    ∃ c rest, t.chars = c :: rest ∧ (isWordStart c = true ∨ c ∈ typeMarks) := by
  cases h with
  | @named name generics hp _ =>
    obtain ⟨c, rest, hc, hs⟩ := hp.first
    by_cases hg : generics = []
    · subst hg
      exact ⟨c, rest, by rw [TypeExpr.chars, hc], .inl hs⟩
    · exact ⟨c, _, by rw [TypeExpr.chars_named hg, hc, List.cons_append], .inl hs⟩
  | reference => exact ⟨'&', _, by rw [TypeExpr.chars]; rfl, .inr (by decide)⟩
  | implBound => exact ⟨'i', _, by rw [TypeExpr.chars]; rfl, .inl (by decide)⟩
  | dynBound => exact ⟨'d', _, by rw [TypeExpr.chars]; rfl, .inl (by decide)⟩
  | tuple => exact ⟨'(', _, by rw [TypeExpr.chars_tuple]; rfl, .inr (by decide)⟩
  | slice => exact ⟨'[', _, by rw [TypeExpr.chars]; rfl, .inr (by decide)⟩
  | array => exact ⟨'[', _, by rw [TypeExpr.chars_array]; rfl, .inr (by decide)⟩
  | @pointer isMutable =>
    rw [TypeExpr.chars]
    cases isMutable <;> exact ⟨'*', _, rfl, .inr (by decide)⟩
  | fnTrait hk =>
    obtain ⟨c, rest, hc, hs⟩ := (isPath_of_callable hk).first
    exact ⟨c, _, by rw [TypeExpr.chars_fnTrait, hc, List.cons_append, List.cons_append], .inl hs⟩

theorem TypeExpr.WellFormed.head?_ne {t : TypeExpr} (h : t.WellFormed) {d : Char}
    (hw : isWordStart d = false) (hd : d ∉ typeMarks) (post : List Char) :
    (t.chars ++ post).head? ≠ some d := by
  obtain ⟨c, rest, hc, hs⟩ := h.first
  rw [hc]
  intro he
  obtain rfl : c = d := Option.some.inj he
  rcases hs with hs | hs
  · rw [hw] at hs
    cases hs
  · exact hd hs

theorem GenericArg.WellFormed.head?_ne_equals {a : GenericArg} (h : a.WellFormed)
    (hb : a.isBinding = false) (post : List Char) : (a.chars ++ post).head? ≠ some '=' := by
  cases h with
  | type ht =>
    rw [GenericArg.chars]
    exact ht.head?_ne (by decide) (by decide) post
  | lifetime hl =>
    obtain ⟨word, -, hq⟩ := hl
    rw [GenericArg.chars, hq]
    simp
  | binding => cases hb

theorem word?_of_mark {c : Char} {rest : List Char} (h : isWordStart c = false) :
    word? (c :: rest) = none := by
  simp [word?, h]

/-- Behind the first word of a path stands no equals sign, unless one follows the path. -/
theorem IsPath.word?_append {s post word rest : List Char} (hs : IsPath s)
    (hw : continuesWord post = false) (he : (trimStart post).head? ≠ some '=')
    (h : word? (s ++ post) = some (word, rest)) : (trimStart rest).head? ≠ some '=' := by
  obtain ⟨first, more, hf, -, hm, rfl⟩ := hs
  have hrest : continuesWord (more.flatMap ("::".toList ++ ·) ++ post) = false := by
    cases more with
    | nil => exact hw
    | cons word more => rfl
  rw [List.append_assoc, Text.word?_append hf hrest] at h
  obtain ⟨-, rfl⟩ := Prod.mk.inj (Option.some.inj h)
  cases more with
  | nil => exact he
  | cons word more =>
    rw [List.flatMap_cons, List.append_assoc, List.append_assoc]
    change (trimStart (':' :: _)).head? ≠ some '='
    rw [trimStart_cons rfl]
    simp

theorem TypeExpr.BoundWord.no_equals {kw word rest : List Char} {build : List GenericArg → TypeExpr}
    (h : TypeExpr.BoundWord kw build) {bounds : List GenericArg} (hl : GenericArg.AreBounds bounds)
    (ha : ∀ a ∈ bounds, a.WellFormed) (hw : word? (build bounds).chars = some (word, rest)) :
    (trimStart rest).head? ≠ some '=' := by
  rw [h.chars_eq, Text.word?_append h.isIdentifier (continuesWord_blank _)] at hw
  obtain ⟨-, rfl⟩ := Prod.mk.inj (Option.some.inj hw)
  cases bounds with
  | nil => exact absurd rfl hl.nonempty
  | cons a as =>
    have ha' := ha a List.mem_cons_self
    rw [trimStart_cons_blank rfl, GenericArg.boundChars, ha'.tight.trimStart_append]
    exact ha'.head?_ne_equals (hl.noBinding a List.mem_cons_self) _

/-- A written type is never taken for a binding: no equals sign follows its first word. -/
theorem TypeExpr.WellFormed.no_equals {t : TypeExpr} (h : t.WellFormed) {word rest : List Char}
    (hw : word? t.chars = some (word, rest)) : (trimStart rest).head? ≠ some '=' := by
  cases h with
  | @named name generics hp _ =>
    by_cases hg : generics = []
    · subst hg
      rw [TypeExpr.chars, ← List.append_nil name.toList] at hw
      exact hp.word?_append rfl (by simp [trimStart]) hw
    · rw [TypeExpr.chars_named hg] at hw
      refine hp.word?_append rfl ?_ hw
      rw [List.cons_append, trimStart_cons rfl]
      simp
  | reference =>
    rw [TypeExpr.chars, List.cons_append, word?_of_mark rfl] at hw
    cases hw
  | implBound hl ha => exact TypeExpr.BoundWord.impl.no_equals hl ha hw
  | dynBound hl ha => exact TypeExpr.BoundWord.dyn.no_equals hl ha hw
  | tuple =>
    rw [TypeExpr.chars_tuple, List.cons_append, word?_of_mark rfl] at hw
    cases hw
  | slice =>
    rw [TypeExpr.chars, List.cons_append, word?_of_mark rfl] at hw
    cases hw
  | array =>
    rw [TypeExpr.chars_array, List.cons_append, word?_of_mark rfl] at hw
    cases hw
  | @pointer isMutable =>
    rw [TypeExpr.chars] at hw
    cases isMutable <;> cases hw
  | fnTrait hk =>
    rw [TypeExpr.chars_fnTrait, List.append_assoc] at hw
    refine (isPath_of_callable hk).word?_append rfl ?_ hw
    rw [List.cons_append, List.cons_append, trimStart_cons rfl]
    simp

end First

end ApiSurface
