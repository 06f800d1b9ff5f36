import ApiSurface.Proofs.TypeExpr.Layer

namespace ApiSurface

open Text TopLevel

section Layer

variable {type : Reader TypeExpr} {more : Reader (List GenericArg)} {n : Nat}

section Level

variable {s x post : List Char}

theorem TypeExpr.level_path (hs : IsPath s) (hw : continuesWord post = false)
    (hc : post.head? ≠ some ':') (hx : trimStart x = s ++ post) :
    TypeExpr.level type more x = TypeExpr.namedWith type (String.ofList s) post := by
  obtain ⟨c, rest, he, hstart⟩ := hs.first
  have hfront : s ++ post = c :: (rest ++ post) := by rw [he, List.cons_append]
  rw [TypeExpr.level_word (hx.trans hfront) hstart, ← hfront,
    hs.keyword?_eq_none (by decide) hw, hs.keyword?_eq_none (by decide) hw,
    readPath_append hs hw hc]
  rfl

/-- The word `mut` is not found in front of a written type. -/
theorem TypeExpr.WellFormed.keyword?_mut {t : TypeExpr} (h : t.WellFormed)
    (hp : continuesWord post = false) : keyword? Modifiers.mutWord (t.chars ++ post) = none := by
  cases h with
  | @named name generics hn _ =>
    by_cases hg : generics = []
    · subst hg
      rw [TypeExpr.chars]
      exact hn.keyword?_eq_none (by decide) hp
    · rw [TypeExpr.chars_named hg, List.append_assoc]
      exact hn.keyword?_eq_none (by decide) rfl
  | fnTrait hk =>
    rw [TypeExpr.chars_fnTrait, List.append_assoc, List.append_assoc]
    exact (isPath_of_callable hk).keyword?_eq_none (by decide) rfl
  | reference | implBound | dynBound | slice =>
    rw [TypeExpr.chars]
    exact keyword?_eq_none_of_head (by decide)
  | tuple => rw [TypeExpr.chars_tuple]; exact keyword?_eq_none_of_head (by decide)
  | array => rw [TypeExpr.chars_array]; exact keyword?_eq_none_of_head (by decide)
  | @pointer isMutable =>
    rw [TypeExpr.chars]
    cases isMutable <;> exact keyword?_eq_none_of_head (by decide)

theorem mutability_append (isMutable : Bool) (s : List Char) :
    mutability ((if isMutable then "mut".toList else "const".toList) ++ ' ' :: s) =
      .ok (isMutable, ' ' :: s) := by
  have hm := keyword?_append "mut".toList (continuesWord_blank s)
  have hc := keyword?_append "const".toList (continuesWord_blank s)
  cases isMutable with
  | true =>
    rw [if_pos rfl, mutability, hm]
  | false =>
    have hn : keyword? "mut".toList ("const".toList ++ ' ' :: s) = none :=
      keyword?_eq_none_of_head (by decide)
    rw [if_neg Bool.false_ne_true, mutability, hn, hc]

end Level

section Forms

variable {x post : List Char}

theorem TypeExpr.level_named_chars (ht : ReadsTypes type n) {name : String}
    {generics : List GenericArg} (hpath : IsPath name.toList) (ha : ∀ a ∈ generics, a.WellFormed)
    (hn : (TypeExpr.named name generics).chars.length ≤ n + 1) (hp : Stops false post)
    (hx : trimStart x = (TypeExpr.named name generics).chars ++ post) :
    TypeExpr.level type more x = .ok (.named name generics, post) := by
  by_cases hg : generics = []
  · subst hg
    rw [TypeExpr.chars] at hx
    rw [TypeExpr.level_path hpath hp.word hp.head?_ne_colon hx, String.ofList_toList]
    exact TypeExpr.namedWith_plain hp.mark
  · have hlen : ∀ a ∈ generics, a.chars.length ≤ n := by
      intro a hm
      have hl := length_le_intercalate ", ".toList (List.mem_map_of_mem (f := GenericArg.chars) hm)
      rw [TypeExpr.chars_named hg] at hn
      simp only [List.length_append, List.length_cons] at hn
      omega
    rw [TypeExpr.chars_named hg, List.append_assoc, List.append_assoc] at hx
    rw [TypeExpr.level_path hpath rfl (by simp) hx, String.ofList_toList]
    exact TypeExpr.namedWith_args ht ha hlen post

theorem TypeExpr.level_reference_chars (ht : ReadsTypes type n) {isMutable : Bool}
    {lifetime : Option String} {inner : TypeExpr} (hl : ∀ l ∈ lifetime, IsLifetime l.toList)
    (hi : inner.WellFormed) (hn : (TypeExpr.reference isMutable lifetime inner).chars.length ≤ n + 1)
    (hp : Stops inner.endsOpen post)
    (hx : trimStart x = (TypeExpr.reference isMutable lifetime inner).chars ++ post) :
    TypeExpr.level type more x = .ok (.reference isMutable lifetime inner, post) := by
  have hfirst : ∀ c ∈ (inner.chars ++ post).head?, isBlank c = false ∧ c ≠ '\'' := by
    intro c hc
    constructor
    · obtain ⟨d, rest, hd, hb⟩ := hi.tight.first
      rw [hd] at hc
      exact Option.some.inj hc ▸ hb
    · intro hquote
      rw [hquote] at hc
      exact hi.head?_ne (by decide) (by decide) post hc
  have hmod : Modifiers.read ('&' :: (Modifiers.qualifierChars lifetime isMutable ++
      (inner.chars ++ post))) = .ok (⟨true, lifetime, isMutable⟩, inner.chars ++ post) := by
    refine Modifiers.read_chars (m := ⟨true, lifetime, isMutable⟩) hl ⟨?_, hi.keyword?_mut hp.word⟩
    intro c hc
    exact ⟨(hfirst c hc).1, (hfirst c hc).2, by simp⟩
  have hlen : inner.chars.length ≤ n := by
    rw [TypeExpr.chars] at hn
    simp only [List.length_append, List.length_cons] at hn
    omega
  have hr := ht inner hi hlen [] post rfl hp
  rw [List.nil_append] at hr
  rw [TypeExpr.chars, List.cons_append, List.cons_append, List.append_assoc] at hx
  rw [TypeExpr.level_ampersand hx, hmod, ok_bind, hr, ok_bind]

theorem TypeExpr.BoundWord.level_chars {word : List Char} {build : List GenericArg → TypeExpr}
    (hb : BoundWord word build) (ht : ReadsTypes type n) (hm : ReadsBounds more n)
    {bounds : List GenericArg} (hl : GenericArg.AreBounds bounds) (ha : ∀ a ∈ bounds, a.WellFormed)
    (hn : (build bounds).chars.length ≤ n + 1) (hp : Stops true post)
    (hx : trimStart x = (build bounds).chars ++ post) :
    TypeExpr.level type more x = .ok (build bounds, post) := by
  have hlen : (GenericArg.boundChars bounds).length ≤ n := by
    rw [hb.chars_eq, List.length_append, List.length_cons] at hn
    omega
  rw [hb.chars_eq, List.append_assoc, List.cons_append] at hx
  rw [hb.level_eq hx, GenericArg.readBoundsWith_chars ht hm hl ha hlen hp]
  rfl

theorem TypeExpr.level_tuple_chars (ht : ReadsTypes type n) {elements : List TypeExpr}
    (hi : ∀ t ∈ elements, t.WellFormed) (hn : (TypeExpr.tuple elements).chars.length ≤ n + 1)
    (hx : trimStart x = (TypeExpr.tuple elements).chars ++ post) :
    TypeExpr.level type more x = .ok (.tuple elements, post) := by
  have hlen : ∀ t ∈ elements, t.chars.length ≤ n := by
    intro t hm
    have hl := length_le_intercalate ", ".toList (List.mem_map_of_mem (f := TypeExpr.chars) hm)
    rw [TypeExpr.chars_tuple, TypeExpr.listChars_eq] at hn
    simp only [List.length_append, List.length_cons] at hn
    omega
  let last := if elements.length = 1 then [','] else []
  have hlast : last = [] ∨ elements.length = 1 ∧ last = [','] := by
    by_cases h1 : elements.length = 1
    · exact .inr ⟨h1, if_pos h1⟩
    · exact .inl (if_neg h1)
  have hnest : Bracket.IsNested (TypeExpr.listChars elements ++ last) := by
    refine (isNested_listChars fun t h => (hi t h).passes).append ?_
    rcases hlast with h | ⟨-, h⟩ <;> rw [h] <;> decide
  have he := hnest.enclosed (b := .round) (fun h => absurd h (by decide)) post
  rw [TypeExpr.chars_tuple, List.append_assoc] at hx
  rw [TypeExpr.level_round hx]
  change Bracket.enclosed (Bracket.round.opener :: (TypeExpr.listChars elements ++ last) ++
    Bracket.round.closer :: post) >>= _ = _
  rw [he, ok_bind, TypeExpr.mapM_listChars ht hi hlen hlast, ok_bind]

theorem TypeExpr.level_pointer_chars (ht : ReadsTypes type n) {isMutable : Bool} {inner : TypeExpr}
    (hi : inner.WellFormed) (hn : (TypeExpr.pointer isMutable inner).chars.length ≤ n + 1)
    (hp : Stops inner.endsOpen post)
    (hx : trimStart x = (TypeExpr.pointer isMutable inner).chars ++ post) :
    TypeExpr.level type more x = .ok (.pointer isMutable inner, post) := by
  have hlen : inner.chars.length ≤ n := by
    rw [TypeExpr.chars, List.length_append] at hn
    have hword : 1 ≤ (if isMutable then "*mut ".toList else "*const ".toList).length := by
      cases isMutable <;> decide
    omega
  have hword : (TypeExpr.pointer isMutable inner).chars ++ post =
      '*' :: ((if isMutable then "mut".toList else "const".toList) ++
        ' ' :: (inner.chars ++ post)) := by
    rw [TypeExpr.chars]
    cases isMutable <;> simp
  have htight : IsTight (if isMutable then "mut".toList else "const".toList) := by
    cases isMutable <;> exact IsTight.of_isIdentifier (by decide)
  have hr := ht inner hi hlen [' '] post rfl hp
  rw [TypeExpr.level_star (hx.trans hword), htight.trimStart_append, mutability_append, ok_bind]
  change type ([' '] ++ (inner.chars ++ post)) >>= _ = _
  rw [hr, ok_bind]

theorem TypeExpr.level_fnTrait_chars (ht : ReadsTypes type n) {kind : String}
    {params : List TypeExpr} {result : Option TypeExpr} (hk : kind ∈ callableKinds)
    (hi : ∀ t ∈ params, t.WellFormed) (hr : ∀ t ∈ result, t.WellFormed)
    (hn : (TypeExpr.fnTrait kind params result).chars.length ≤ n + 1)
    (hp : Stops (result.elim false TypeExpr.endsOpen) post)
    (hx : trimStart x = (TypeExpr.fnTrait kind params result).chars ++ post) :
    TypeExpr.level type more x = .ok (.fnTrait kind params result, post) := by
  have hlen : (∀ t ∈ params, t.chars.length ≤ n) ∧ ∀ t ∈ result, t.chars.length ≤ n := by
    rw [TypeExpr.chars_fnTrait, TypeExpr.listChars_eq] at hn
    simp only [List.length_append, List.length_cons] at hn
    constructor
    · intro t hm
      have hl := length_le_intercalate ", ".toList (List.mem_map_of_mem (f := TypeExpr.chars) hm)
      omega
    · intro t hresult
      rw [Option.mem_def.1 hresult, TypeExpr.resultChars, Option.elim_some,
        List.length_append] at hn
      omega
  have hres := TypeExpr.resultWith_chars ht hr hlen.2 hp
  rw [TypeExpr.chars_fnTrait, List.append_assoc, List.append_assoc, List.append_assoc] at hx
  rw [TypeExpr.level_path (isPath_of_callable hk) rfl (by simp) hx, String.ofList_toList]
  exact TypeExpr.namedWith_call ht hk hi hlen.1 hres

end Forms

/-- One layer reads every written type whose inner types its readers can read. -/
theorem TypeExpr.level_chars (ht : ReadsTypes type n) (hm : ReadsBounds more n) :
    ReadsTypes (TypeExpr.level type more) (n + 1) := by
  intro t hw hn pre post hpre hp
  have hx : trimStart (pre ++ (t.chars ++ post)) = t.chars ++ post := by
    rw [trimStart_blank_append hpre, hw.tight.trimStart_append]
  generalize pre ++ (t.chars ++ post) = x at hx ⊢
  cases hw with
  | named hpath ha => exact TypeExpr.level_named_chars ht hpath ha hn hp hx
  | reference hl hi => exact TypeExpr.level_reference_chars ht hl hi hn hp hx
  | implBound hl ha => exact BoundWord.impl.level_chars ht hm hl ha hn hp hx
  | dynBound hl ha => exact BoundWord.dyn.level_chars ht hm hl ha hn hp hx
  | tuple hi => exact TypeExpr.level_tuple_chars ht hi hn hx
  | @slice inner hi =>
    have hlen : inner.chars.length ≤ n := by
      rw [TypeExpr.chars] at hn
      simp only [List.length_append, List.length_cons] at hn
      omega
    have he := hi.passes.nested.enclosed (b := .square) (fun h => absurd h (by decide)) post
    rw [TypeExpr.chars, List.append_assoc] at hx
    rw [TypeExpr.level_square hx]
    change Bracket.enclosed (Bracket.square.opener :: inner.chars ++
      Bracket.square.closer :: post) >>= _ = _
    rw [he, ok_bind, TypeExpr.squareWith_slice ht hi hlen, ok_bind]
  | @array inner length hi htrim hnest =>
    have hlen : inner.chars.length ≤ n := by
      rw [TypeExpr.chars_array] at hn
      simp only [List.length_append, List.length_cons] at hn
      omega
    have hs : Bracket.IsNested "; ".toList := by decide
    have he := ((hi.passes.nested.append hs).append hnest).enclosed (b := .square)
      (fun h => absurd h (by decide)) post
    rw [TypeExpr.chars_array, List.append_assoc] at hx
    rw [TypeExpr.level_square hx]
    change Bracket.enclosed (Bracket.square.opener :: (inner.chars ++ "; ".toList ++
      length.toList) ++ Bracket.square.closer :: post) >>= _ = _
    rw [he, ok_bind, TypeExpr.squareWith_array ht hi hlen htrim, ok_bind]
  | pointer hi => exact TypeExpr.level_pointer_chars ht hi hn hp hx
  | @fnTrait kind params result hk hi hr =>
    have hpost : Stops (result.elim false TypeExpr.endsOpen) post := by
      cases result <;> exact hp
    exact TypeExpr.level_fnTrait_chars ht hk hi hr hn hpost hx

end Layer

/-- However deep a type goes, the length of what is written of it bounds the layers. -/
theorem TypeExpr.readWithin_chars (n : Nat) :
    ReadsTypes (TypeExpr.readWithin n) n ∧ ReadsBounds (GenericArg.moreWithin n) n := by
  induction n with
  | zero =>
    constructor
    · intro t hw hn
      exact absurd (List.eq_nil_of_length_eq_zero (Nat.le_zero.1 hn)) hw.tight.ne_nil
    · intro bounds _ _ _ hn post _
      cases bounds with
      | nil => rfl
      | cons a as =>
        simp only [GenericArg.charsAfter, List.length_append] at hn
        exact absurd hn (by simp)
  | succ n ih => exact ⟨TypeExpr.level_chars ih.1 ih.2, GenericArg.moreLevel_chars ih.1 ih.2⟩

/-- A written type is read off a text in which nothing goes on with it. -/
theorem TypeExpr.read_chars {t : TypeExpr} (hw : t.WellFormed) {pre post : List Char}
    (hpre : isBlankText pre = true) (hp : Stops t.endsOpen post) :
    TypeExpr.read (pre ++ (t.chars ++ post)) = .ok (t, post) := by
  have h := (TypeExpr.readWithin_chars (pre ++ (t.chars ++ post)).length).1 t hw
  exact h (by simp only [List.length_append]; omega) pre post hpre hp

/-- Every well-formed type is what its written form reads as. -/
theorem TypeExpr.ofText_chars (t : TypeExpr) (hw : t.WellFormed) :
    TypeExpr.ofText t.chars = .ok t := by
  have h : TypeExpr.read ([] ++ (t.chars ++ [])) = .ok (t, []) :=
    TypeExpr.read_chars hw rfl Stops.nil
  rw [List.nil_append, List.append_nil] at h
  exact TypeExpr.wholeWith_eq_ok h rfl

theorem TypeExpr.ofText_callable :
    TypeExpr.ofText
        "&'a dyn Fn(Vec<'b, Item = *mut u8>, [u8; \x7bN->\x7d]) -> impl a::A + 'b".toList =
      .ok (.reference false (some "'a") (.dynBound [.type (.fnTrait "Fn"
        [.named "Vec" [.lifetime "'b", .binding "Item" (.pointer true (.named "u8" []))],
          .array (.named "u8" []) "\x7bN->\x7d"]
        (some (.implBound [.type (.named "a::A" []), .lifetime "'b"])))])) := by
  have hword (word : String) (hw : isIdentifier word.toList = true)
      (hr : word.toList ∉ reservedWords) : (TypeExpr.named word []).WellFormed :=
    .named ⟨word.toList, [], hw, hr, by simp, by simp⟩ (by simp)
  have hlife (word : List Char) (hw : isIdentifier word = true) : IsLifetime ('\'' :: word) :=
    ⟨word, hw, rfl⟩
  have hvec : (TypeExpr.named "Vec"
      [.lifetime "'b", .binding "Item" (.pointer true (.named "u8" []))]).WellFormed := by
    refine .named ⟨"Vec".toList, [], by decide, by decide, by simp, by simp⟩ ?_
    rw [List.forall_mem_cons, List.forall_mem_singleton]
    exact ⟨.lifetime (hlife ['b'] rfl), .binding (by decide) (.pointer (hword "u8" rfl (by decide)))⟩
  have harray : (TypeExpr.array (.named "u8" []) "\x7bN->\x7d").WellFormed :=
    .array (hword "u8" rfl (by decide)) (by decide) (by decide)
  have himpl : (TypeExpr.implBound [.type (.named "a::A" []), .lifetime "'b"]).WellFormed := by
    refine .implBound ⟨by simp, by decide, by decide⟩ ?_
    rw [List.forall_mem_cons, List.forall_mem_singleton]
    refine ⟨.type (.named ⟨['a'], [['A']], by decide, by decide, by decide, by decide⟩ (by simp)), ?_⟩
    exact .lifetime (hlife ['b'] rfl)
  have hparams := List.forall_mem_cons.2 ⟨hvec, List.forall_mem_singleton.2 harray⟩
  have hdyn : (TypeExpr.dynBound [.type (.fnTrait "Fn"
      [.named "Vec" [.lifetime "'b", .binding "Item" (.pointer true (.named "u8" []))],
        .array (.named "u8" []) "\x7bN->\x7d"]
      (some (.implBound [.type (.named "a::A" []), .lifetime "'b"])))]).WellFormed := by
    refine .dynBound ⟨by simp, by decide, by decide⟩ (List.forall_mem_singleton.2 ?_)
    exact .type (.fnTrait (by decide) hparams fun t ht => Option.some.inj ht ▸ himpl)
  have h := TypeExpr.ofText_chars _ (@TypeExpr.WellFormed.reference false (some "'a") _
    (fun l hl => Option.some.inj hl ▸ hlife ['a'] rfl) hdyn)
  rw [← h]
  congr 1
end ApiSurface
