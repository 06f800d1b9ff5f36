import ApiSurface.Proofs.Nesting.Scanners
import ApiSurface.Source.Lead

namespace ApiSurface.Lead

open Text
open ApiSurface.Bracket (enclosed_append)

variable {s t rest : List Char}

theorem readVisibility_append {v : String} (h : readVisibility s = .ok (v, rest))
    (hr : trimStart rest ≠ []) (ht : continuesWord t = false) :
    readVisibility (s ++ t) = .ok (v, rest ++ t) := by
  have hk : keyword? "pub".toList (s ++ t) = (keyword? "pub".toList s).map (· ++ t) :=
    keyword?_append_right (by decide) ht s
  unfold readVisibility at h ⊢
  rw [hk]
  cases hpub : keyword? "pub".toList s with
  | none =>
    rw [hpub] at h
    obtain ⟨rfl, rfl⟩ := Prod.mk.inj (Except.ok.inj h)
    rfl
  | some after =>
    rw [hpub] at h
    dsimp only [Option.map_some] at h ⊢
    split at h
    · rename_i scope he
      obtain ⟨⟨inner, after'⟩, hi, hp⟩ := map_eq_ok_iff.1 h
      obtain ⟨rfl, rfl⟩ := Prod.mk.inj hp
      have hne : trimStart after ≠ [] := by
        rw [he]
        exact List.cons_ne_nil _ _
      rw [trimStart_append hne, he, List.cons_append]
      exact map_eq_ok_iff.2 ⟨_, enclosed_append hi t, rfl⟩
    · rename_i hround
      obtain ⟨rfl, rfl⟩ := Prod.mk.inj (Except.ok.inj h)
      rw [trimStart_append hr]
      obtain ⟨c, after', he⟩ := List.exists_cons_of_ne_nil hr
      rw [he, List.cons_append]
      split
      · rename_i hc
        rw [(List.cons.inj hc).1] at he
        exact absurd he (hround after')
      · rfl

/-- The name of an interface runs to the next quote. -/
theorem readInterface_quoted {abi : List Char} (ha : '"' ∉ abi)
    (hs : trimStart s = '"' :: (abi ++ '"' :: rest)) :
    readInterface s = .ok (String.ofList ("extern \"".toList ++ abi ++ ['"']), rest) := by
  have hall : ∀ c ∈ abi, (c != '"') = true := by
    intro c hc
    rw [bne_iff_ne]
    exact ne_of_mem_of_not_mem hc ha
  unfold readInterface
  rw [hs]
  simp only [List.takeWhile_append_of_pos hall, List.dropWhile_append_of_pos hall, bne_self_eq_false,
    Bool.false_eq_true, not_false_eq_true, List.takeWhile_cons_of_neg, List.dropWhile_cons_of_neg,
    List.append_nil]

theorem readInterface_plain (hs : (trimStart s).head? ≠ some '"') :
    readInterface s = .ok ("extern", trimStart s) := by
  unfold readInterface
  split
  · rename_i rest he
    rw [he] at hs
    exact absurd rfl hs
  · rfl

theorem readInterface_append {word : String} (h : readInterface s = .ok (word, rest))
    (hr : rest ≠ []) (t : List Char) : readInterface (s ++ t) = .ok (word, rest ++ t) := by
  by_cases hq : (trimStart s).head? = some '"'
  · obtain ⟨after, he⟩ := List.head?_eq_some_iff.1 hq
    have ha := List.takeWhile_append_dropWhile (p := (· != '"')) (l := after)
    have hnot : '"' ∉ after.takeWhile (· != '"') := fun hm => by
      have := List.all_eq_true.1 List.all_takeWhile _ hm
      simp at this
    cases hd : after.dropWhile (· != '"') with
    | nil =>
      unfold readInterface at h
      rw [he] at h
      simp only [hd] at h
      cases h
    | cons c after' =>
      have hc : c = '"' := by
        have := List.head?_dropWhile_not (· != '"') after
        rw [hd] at this
        simpa using this
      subst hc
      rw [hd] at ha
      rw [← ha] at he
      rw [readInterface_quoted hnot he] at h
      obtain ⟨rfl, rfl⟩ := Prod.mk.inj (Except.ok.inj h)
      have hs : trimStart s ≠ [] := by
        rw [he]
        exact List.cons_ne_nil _ _
      refine readInterface_quoted hnot ?_
      rw [trimStart_append hs, he, List.cons_append, List.append_assoc, List.cons_append]
  · rw [readInterface_plain hq] at h
    obtain ⟨rfl, rfl⟩ := Prod.mk.inj (Except.ok.inj h)
    have ht := trimStart_append hr t
    rw [← ht]
    refine readInterface_plain ?_
    rwa [ht, List.head?_append_of_ne_nil _ hr]

theorem qualifier?_append {found : Option (String × List Char)} (h : qualifier? s = .ok found)
    (hs : ∀ p ∈ found, p.2 ≠ []) (ht : continuesWord t = false) :
    qualifier? (s ++ t) = .ok (found.map (Prod.map id (· ++ t))) := by
  have hplain : (plainWords.findSome? fun word => (keyword? word.toList (s ++ t)).map (word, ·)) =
      (plainWords.findSome? fun word => (keyword? word.toList s).map (word, ·)).map
        (Prod.map id (· ++ t)) := by
    have hwords : ∀ word ∈ plainWords, ∀ c ∈ word.toList, isWordChar c = true := by decide
    rw [List.map_findSome?, ← List.head?_filterMap, ← List.head?_filterMap]
    apply congrArg List.head?
    apply List.filterMap_congr
    intro word hw
    rw [keyword?_append_right (hwords word hw) ht, Function.comp, Option.map_map, Option.map_map]
    rfl
  have hextern : keyword? "extern".toList (s ++ t) =
      (keyword? "extern".toList s).map (· ++ t) := keyword?_append_right (by decide) ht s
  unfold qualifier? at h ⊢
  rw [hplain, hextern]
  split at h
  · rename_i found hf
    rw [hf]
    obtain rfl := Except.ok.inj h
    rfl
  · rename_i hn
    rw [hn, Option.map_none]
    dsimp only
    split at h
    · rename_i rest hk
      rw [hk, Option.map_some]
      obtain ⟨⟨word, after⟩, hi, rfl⟩ := map_eq_ok_iff.1 h
      exact map_eq_ok_iff.2 ⟨_, readInterface_append hi (hs _ rfl) t, rfl⟩
    · rename_i hk
      rw [hk]
      obtain rfl := Except.ok.inj h
      rfl

theorem readQualifiers_of_none (h : qualifier? (trimStart s) = .ok none) :
    readQualifiers s = .ok ([], trimStart s) := by
  rw [readQualifiers]
  split
  · rename_i he
    rw [h] at he
    cases he
  · rfl
  · rename_i he
    rw [h] at he
    cases he

theorem readQualifiers_of_some {word : String}
    (h : qualifier? (trimStart s) = .ok (some (word, rest))) :
    readQualifiers s = (readQualifiers rest).map (Prod.map (word :: ·) id) := by
  rw [readQualifiers]
  split
  · rename_i he
    rw [h] at he
    cases he
  · rename_i he
    rw [h] at he
    cases he
  · rename_i word' rest' he
    rw [h] at he
    obtain ⟨rfl, rfl⟩ := Prod.mk.inj (Option.some.inj (Except.ok.inj he))
    rfl

/-- Where something stands after the qualifiers, more than white space stood in front. -/
theorem trimStart_ne_nil_of_readQualifiers {words : List String}
    (h : readQualifiers s = .ok (words, rest)) (hr : rest ≠ []) : trimStart s ≠ [] := by
  intro hs
  rw [readQualifiers_of_none (by rw [hs]; rfl)] at h
  exact hr ((Prod.mk.inj (Except.ok.inj h)).2.symm.trans hs)

theorem readQualifiers_append {words : List String} (h : readQualifiers s = .ok (words, rest))
    (hr : rest ≠ []) (ht : continuesWord t = false) :
    readQualifiers (s ++ t) = .ok (words, rest ++ t) := by
  fun_induction readQualifiers s generalizing words with
  | case1 => cases h
  | case2 s hq =>
    obtain ⟨rfl, rfl⟩ := Prod.mk.inj (Except.ok.inj h)
    have hq' := qualifier?_append hq (by simp) ht
    rw [← trimStart_append hr] at hq' ⊢
    exact readQualifiers_of_none hq'
  | case3 s word after hq ih =>
    obtain ⟨⟨words', rest'⟩, hw, hp⟩ := map_eq_ok_iff.1 h
    obtain ⟨rfl, rfl⟩ := Prod.mk.inj hp
    have hs : trimStart s ≠ [] := by
      intro hs
      rw [hs] at hq
      cases hq
    have ha : after ≠ [] := by
      intro hnil
      rw [hnil] at hw
      exact trimStart_ne_nil_of_readQualifiers hw hr rfl
    have hq' := qualifier?_append hq (fun p hp => Option.some.inj hp ▸ ha) ht
    rw [← trimStart_append hs] at hq'
    rw [readQualifiers_of_some hq', id, ih hw]
    rfl

theorem read_append {lead : Lead} (h : read s = .ok (lead, rest)) (hr : rest ≠ [])
    (ht : continuesWord t = false) : read (s ++ t) = .ok (lead, rest ++ t) := by
  obtain ⟨⟨v, middle⟩, hv, h⟩ := bind_eq_ok_iff.1 h
  obtain ⟨⟨words, after⟩, hq, h⟩ := bind_eq_ok_iff.1 h
  obtain ⟨rfl, rfl⟩ := Prod.mk.inj (Except.ok.inj h)
  have hm := trimStart_ne_nil_of_readQualifiers hq hr
  exact bind_eq_ok_iff.2 ⟨_, readVisibility_append hv hm ht,
    bind_eq_ok_iff.2 ⟨_, readQualifiers_append hq hr ht, rfl⟩⟩

/-- In front of a comment or an attribute stands no lead. -/
theorem read_of_mark {c : Char} (hc : c = '/' ∨ c = '#') (s : List Char) :
    read (c :: s) = .ok (⟨Signature.privateWord, []⟩, c :: s) := by
  have hv : readVisibility (c :: s) = .ok (Signature.privateWord, c :: s) := by
    rcases hc with rfl | rfl <;> rfl
  have hq : readQualifiers (c :: s) = .ok ([], c :: s) := by
    rcases hc with rfl | rfl <;> exact readQualifiers_of_none rfl
  exact bind_eq_ok_iff.2 ⟨_, hv, bind_eq_ok_iff.2 ⟨_, hq, rfl⟩⟩

section Written

/-- The visibilities that are read back: none, `pub`, and `pub` with a scope that is trimmed and closes
its parentheses. -/
inductive IsVisibility : String → Prop
  | hidden : IsVisibility Signature.privateWord
  | exported : IsVisibility Signature.publicWord
  | within {scope : List Char} (trimmed : trim scope = scope)
      (balanced : Bracket.round.IsBalanced scope) :
      IsVisibility (String.ofList ("pub(".toList ++ scope ++ [')']))

/-- The qualifiers that are read back: the single words, and `extern` with or without an interface. -/
inductive IsQualifier : String → Prop
  | plain {word : String} (known : word ∈ plainWords) : IsQualifier word
  | foreign : IsQualifier "extern"
  | interface {abi : List Char} (unquoted : '"' ∉ abi) :
      IsQualifier (String.ofList ("extern \"".toList ++ abi ++ ['"']))

/-- The letters that qualifiers and the words that tell an item's kind begin with. -/
def leadLetters : List Char := ['a', 'c', 'd', 'e', 'f', 'i', 'u']

/-- A text in front of which stands a word that a visibility may stand before. -/
def BeginsWord (s : List Char) : Prop := ∃ c rest, s = c :: rest ∧ c ∈ leadLetters

theorem BeginsWord.marks (ht : BeginsWord t) : ∃ c rest, t = c :: rest ∧ isBlank c = false ∧
    c ≠ 'p' ∧ c ≠ '(' ∧ c ≠ '"' := by
  have hletters : ∀ c ∈ leadLetters, isBlank c = false ∧ c ≠ 'p' ∧ c ≠ '(' ∧ c ≠ '"' := by decide
  obtain ⟨c, rest, rfl, hc⟩ := ht
  exact ⟨c, rest, rfl, hletters c hc⟩

theorem BeginsWord.trimStart (ht : BeginsWord t) : trimStart t = t := by
  obtain ⟨c, rest, rfl, hb, -⟩ := ht.marks
  exact trimStart_cons hb

theorem BeginsWord.append (hs : BeginsWord s) (t : List Char) : BeginsWord (s ++ t) := by
  obtain ⟨c, rest, rfl, hc⟩ := hs
  exact ⟨c, rest ++ t, rfl, hc⟩

theorem visibilityChars_within (scope : List Char) :
    Signature.visibilityChars (String.ofList ("pub(".toList ++ scope ++ [')'])) =
      "pub(".toList ++ scope ++ [')'] ++ [' '] := by
  have hne : String.ofList ("pub(".toList ++ scope ++ [')']) ≠ Signature.privateWord := by
    intro h
    have := congrArg String.toList h
    rw [String.toList_ofList] at this
    cases this
  rw [Signature.visibilityChars, if_neg hne, String.toList_ofList]

theorem IsVisibility.first {v : String} (hv : IsVisibility v) :
    Signature.visibilityChars v = [] ∨ ∃ t, Signature.visibilityChars v = 'p' :: t := by
  cases hv with
  | hidden => exact .inl rfl
  | exported => exact .inr ⟨_, rfl⟩
  | within => exact .inr ⟨_, visibilityChars_within _⟩

theorem readVisibility_chars {v : String} (hv : IsVisibility v) (ht : BeginsWord t) :
    ∃ blank, isBlankText blank = true ∧
      readVisibility (Signature.visibilityChars v ++ t) = .ok (v, blank ++ t) := by
  obtain ⟨c, rest, he, hb, hp, hround, -⟩ := ht.marks
  have hskip : Text.trimStart (' ' :: t) = t :=
    (trimStart_cons_blank rfl).trans ht.trimStart
  cases hv with
  | hidden =>
    have hk : keyword? "pub".toList t = none := by
      rw [he]
      exact keyword?_eq_none_of_head (Ne.symm hp)
    refine ⟨[], rfl, ?_⟩
    rw [Signature.visibilityChars, if_pos rfl, List.nil_append, readVisibility, hk]
  | exported =>
    have hk := keyword?_append "pub".toList (continuesWord_blank t)
    refine ⟨[' '], rfl, ?_⟩
    rw [Signature.visibilityChars, if_neg (by decide), List.append_assoc]
    change readVisibility ("pub".toList ++ ' ' :: t) = _
    unfold readVisibility
    rw [hk]
    dsimp only
    rw [hskip, he]
    split
    · rename_i hc
      exact absurd (List.cons.inj hc).1 hround
    · rfl
  | @within scope htrim hbal =>
    have hk : keyword? "pub".toList ("pub".toList ++ '(' :: (scope ++ ')' :: ' ' :: t)) = _ :=
      keyword?_append "pub".toList rfl
    have he : Bracket.enclosed ('(' :: (scope ++ ')' :: ' ' :: t)) = .ok (scope, ' ' :: t) :=
      hbal.enclosed (by decide) (' ' :: t)
    refine ⟨[' '], rfl, ?_⟩
    rw [visibilityChars_within]
    have happend : "pub(".toList ++ scope ++ [')'] ++ [' '] ++ t =
        "pub".toList ++ '(' :: (scope ++ ')' :: ' ' :: t) := by
      simp
    rw [happend]
    unfold readVisibility
    rw [hk]
    dsimp only
    rw [trimStart_cons rfl]
    change Except.map _ (Bracket.enclosed ('(' :: (scope ++ ')' :: ' ' :: t))) = _
    rw [he, Except.map, htrim]
    rfl

theorem qualifier?_chars {q : String} (hq : IsQualifier q) (ht : BeginsWord t) :
    ∃ blank, isBlankText blank = true ∧
      qualifier? (q.toList ++ ' ' :: t) = .ok (some (q, blank ++ t)) := by
  obtain ⟨c, rest, he, hb, -, -, hquote⟩ := ht.marks
  have hskip : Text.trimStart (' ' :: t) = t :=
    (trimStart_cons_blank rfl).trans ht.trimStart
  cases hq with
  | plain hk =>
    refine ⟨[' '], rfl, ?_⟩
    simp only [plainWords, List.mem_cons, List.not_mem_nil, or_false] at hk
    rcases hk with rfl | rfl | rfl | rfl <;> rfl
  | foreign =>
    have hi : readInterface (' ' :: t) = .ok ("extern", t) := by
      have h := readInterface_plain (s := ' ' :: t) (by rw [hskip, he]; simpa using hquote)
      rwa [hskip] at h
    refine ⟨[], rfl, ?_⟩
    change (readInterface (' ' :: t)).map some = _
    rw [hi]
    rfl
  | @interface abi ha =>
    have hi := readInterface_quoted (s := ' ' :: '"' :: (abi ++ '"' :: ' ' :: t)) ha
      ((trimStart_cons_blank rfl).trans (trimStart_cons rfl))
    refine ⟨[' '], rfl, ?_⟩
    rw [String.toList_ofList]
    have happend : "extern \"".toList ++ abi ++ ['"'] ++ ' ' :: t =
        "extern".toList ++ ' ' :: '"' :: (abi ++ '"' :: ' ' :: t) := by
      simp
    rw [happend]
    change (readInterface (' ' :: '"' :: (abi ++ '"' :: ' ' :: t))).map some = _
    rw [hi]
    rfl

theorem IsQualifier.beginsWord {q : String} (hq : IsQualifier q) : BeginsWord q.toList := by
  cases hq with
  | plain hk =>
    simp only [plainWords, List.mem_cons, List.not_mem_nil, or_false] at hk
    rcases hk with rfl | rfl | rfl | rfl <;> exact ⟨_, _, rfl, by decide⟩
  | foreign => exact ⟨_, _, rfl, by decide⟩
  | interface =>
    rw [String.toList_ofList]
    exact ⟨_, _, rfl, by decide⟩

/-- What is written of qualifiers, each with a blank after it. -/
def qualifierChars (qualifiers : List String) : List Char :=
  qualifiers.flatMap fun q => q.toList ++ [' ']

theorem beginsWord_qualifierChars {qualifiers : List String}
    (hq : ∀ q ∈ qualifiers, IsQualifier q) (ht : BeginsWord t) :
    BeginsWord (qualifierChars qualifiers ++ t) := by
  cases qualifiers with
  | nil => exact ht
  | cons q qualifiers =>
    rw [qualifierChars, List.flatMap_cons, List.append_assoc, List.append_assoc]
    exact (hq q List.mem_cons_self).beginsWord.append _

theorem readQualifiers_blank_append {blank : List Char} (hb : isBlankText blank = true)
    (s : List Char) : readQualifiers (blank ++ s) = readQualifiers s := by
  rw [readQualifiers, trimStart_blank_append hb, readQualifiers.eq_1 s]

theorem readQualifiers_chars {qualifiers : List String} (hq : ∀ q ∈ qualifiers, IsQualifier q)
    (ht : BeginsWord t) (hend : qualifier? t = .ok none) :
    readQualifiers (qualifierChars qualifiers ++ t) = .ok (qualifiers, t) := by
  induction qualifiers with
  | nil =>
    have h := readQualifiers_of_none (s := t) (by rwa [ht.trimStart])
    rwa [ht.trimStart] at h
  | cons q qualifiers ih =>
    have hmore := fun q' h => hq q' (List.mem_cons_of_mem q h)
    have hq' := hq q List.mem_cons_self
    obtain ⟨blank, hb, h⟩ := qualifier?_chars hq' (beginsWord_qualifierChars hmore ht)
    have happend : qualifierChars (q :: qualifiers) ++ t =
        q.toList ++ ' ' :: (qualifierChars qualifiers ++ t) := by
      simp [qualifierChars]
    have htrim : Text.trimStart (q.toList ++ ' ' :: (qualifierChars qualifiers ++ t)) =
        q.toList ++ ' ' :: (qualifierChars qualifiers ++ t) := (hq'.beginsWord.append _).trimStart
    rw [happend, readQualifiers_of_some (by rwa [htrim]), readQualifiers_blank_append hb, ih hmore]
    rfl

/-- A written lead is read back from in front of a word that is no qualifier. -/
theorem read_chars {v : String} {qualifiers : List String} (hv : IsVisibility v)
    (hq : ∀ q ∈ qualifiers, IsQualifier q) (ht : BeginsWord t) (hend : qualifier? t = .ok none) :
    read (Signature.visibilityChars v ++ (qualifierChars qualifiers ++ t)) =
      .ok (⟨v, qualifiers⟩, t) := by
  obtain ⟨blank, hb, h⟩ := readVisibility_chars hv (beginsWord_qualifierChars hq ht)
  have hmore := readQualifiers_chars hq ht hend
  rw [← readQualifiers_blank_append hb] at hmore
  exact bind_eq_ok_iff.2 ⟨_, h, bind_eq_ok_iff.2 ⟨_, hmore, rfl⟩⟩

end Written

end ApiSurface.Lead
