import ApiSurface.Text.Blank
import ApiSurface.Text.Line
import ApiSurface.Text.Word

namespace ApiSurface.Text

/-- What is said of every character of a text is decided along the text. -/
instance (priority := high) decidableForallMem (p : Char → Prop) [DecidablePred p] (s : List Char) :
    Decidable (∀ c ∈ s, p c) :=
  List.decidableBAll p s

theorem ne_of_isWordChar {c d : Char} (hc : isWordChar c = true) (hd : isWordChar d = false) :
    c ≠ d := by
  intro h
  rw [h, hd] at hc
  cases hc

theorem isBlank_of_isWordChar {c : Char} (h : isWordChar c = true) : isBlank c = false := by
  have hr : 48 ≤ c.toNat ∧ c.toNat ≤ 122 := by
    change (decide (c.val ≥ 65 ∧ c.val ≤ 90) || decide (c.val ≥ 97) && decide (c.val ≤ 122) ||
      decide (c.val ≥ 48) && decide (c.val ≤ 57) || c == '_') = true at h
    simp only [Bool.or_eq_true, Bool.and_eq_true, decide_eq_true_eq, beq_iff_eq, ge_iff_le,
      UInt32.le_iff_toNat_le] at h
    rcases h with ((h | h) | h) | rfl
    · exact ⟨Nat.le_trans (by decide) h.1, Nat.le_trans h.2 (by decide)⟩
    · exact ⟨Nat.le_trans (by decide) h.1, Nat.le_trans h.2 (by decide)⟩
    · exact ⟨Nat.le_trans (by decide) h.1, Nat.le_trans h.2 (by decide)⟩
    · decide
  simp only [isBlank, Bool.or_eq_false_iff, Bool.and_eq_false_iff, decide_eq_false_iff_not,
    beq_eq_false_iff_ne]
  omega

section Trim

variable {c : Char} {s : List Char}

theorem trimStart_cons_blank (h : isBlank c = true) : trimStart (c :: s) = trimStart s :=
  List.dropWhile_cons_of_pos h

theorem trimStart_cons (h : isBlank c = false) : trimStart (c :: s) = c :: s :=
  List.dropWhile_cons_of_neg (by simp [h])

theorem trimStart_eq_self (h : ∀ c ∈ s.head?, isBlank c = false) : trimStart s = s := by
  cases s with
  | nil => rfl
  | cons c s => exact trimStart_cons (h c rfl)

theorem trimStart_blank_append {pre : List Char} (h : isBlankText pre = true) :
    trimStart (pre ++ s) = trimStart s :=
  List.dropWhile_append_of_pos (List.all_eq_true.1 h)

theorem trimStart_trimStart (s : List Char) : trimStart (trimStart s) = trimStart s := by
  apply trimStart_eq_self
  intro c hc
  have h := List.head?_dropWhile_not isBlank s
  rw [trimStart] at hc
  rw [hc] at h
  exact h

/-- Text that is not all blank hides from trimming what comes after it. -/
theorem trimStart_append (h : trimStart s ≠ []) (t : List Char) :
    trimStart (s ++ t) = trimStart s ++ t := by
  have he : (s.dropWhile isBlank).isEmpty = false := by simpa [trimStart] using h
  rw [trimStart, List.dropWhile_append, he, if_neg Bool.false_ne_true, trimStart]

theorem exists_blank_append (s : List Char) :
    ∃ blank, isBlankText blank = true ∧ s = blank ++ trimStart s :=
  ⟨s.takeWhile isBlank, List.all_takeWhile, List.takeWhile_append_dropWhile.symm⟩

theorem isBlankText_append {t : List Char} (hs : isBlankText s = true)
    (ht : isBlankText t = true) : isBlankText (s ++ t) = true := by
  rw [isBlankText, List.all_append, Bool.and_eq_true]
  exact ⟨hs, ht⟩

theorem head?_ne_of_isBlankText (hs : isBlankText s = true) (hc : isBlank c = false) :
    s.head? ≠ some c := by
  intro h
  rw [List.all_eq_true.1 hs c (List.mem_of_head? h)] at hc
  cases hc

theorem head?_blank_append_ne {t : List Char} (hs : isBlankText s = true) (hc : isBlank c = false)
    (ht : t.head? ≠ some c) : (s ++ t).head? ≠ some c := by
  cases s with
  | nil => exact ht
  | cons d s => exact head?_ne_of_isBlankText (s := d :: s) hs hc

theorem trimEnd_concat (h : isBlank c = false) : trimEnd (s ++ [c]) = s ++ [c] := by
  simp [trimEnd, dropEndWhile, h]

/-- Nothing is dropped from a text that does not end in the character. -/
theorem dropEndWhile_eq_self (h : s.getLast? ≠ some c) : dropEndWhile (· == c) s = s := by
  rw [← List.head?_reverse] at h
  unfold dropEndWhile
  cases hr : s.reverse with
  | nil => rw [List.dropWhile_nil, ← hr, List.reverse_reverse]
  | cons d t =>
    rw [hr, List.head?_cons, ne_eq, Option.some.injEq] at h
    rw [List.dropWhile_cons_of_neg (by simpa using h), ← hr, List.reverse_reverse]

theorem trim_cons_blank (h : isBlank c = true) : trim (c :: s) = trim s := by
  rw [trim, trimStart_cons_blank h, trim]

theorem trim_of_isBlankText (h : isBlankText s = true) : trim s = [] := by
  rw [trim, trimStart_eq_nil_iff.2 h]
  rfl

end Trim

/-- A text that begins and ends with no blank. -/
structure IsTight (s : List Char) : Prop where
  first : ∃ c t, s = c :: t ∧ isBlank c = false
  last : ∃ t c, s = t ++ [c] ∧ isBlank c = false

namespace IsTight

variable {s t : List Char}

theorem ne_nil (h : IsTight s) : s ≠ [] := by
  obtain ⟨c, t, rfl, -⟩ := h.first
  exact List.cons_ne_nil c t

theorem trimStart_append (h : IsTight s) (t : List Char) : trimStart (s ++ t) = s ++ t := by
  obtain ⟨c, s, rfl, hc⟩ := h.first
  exact trimStart_cons hc

theorem trim (h : IsTight s) : trim s = s := by
  have hs := h.trimStart_append []
  obtain ⟨u, c, rfl, hc⟩ := h.last
  rw [List.append_nil] at hs
  rw [Text.trim, hs, trimEnd_concat hc]

theorem of_forall (hs : s ≠ []) (h : ∀ c ∈ s, isBlank c = false) : IsTight s := by
  refine ⟨?_, s.dropLast, s.getLast hs, (List.dropLast_concat_getLast hs).symm,
    h _ (List.getLast_mem hs)⟩
  obtain ⟨c, t, rfl⟩ := List.exists_cons_of_ne_nil hs
  exact ⟨c, t, rfl, h c List.mem_cons_self⟩

theorem between (hs : IsTight s) (middle : List Char) (ht : IsTight t) :
    IsTight (s ++ middle ++ t) := by
  obtain ⟨c, s, rfl, hc⟩ := hs.first
  obtain ⟨t, d, rfl, hd⟩ := ht.last
  exact ⟨⟨c, s ++ middle ++ (t ++ [d]), by simp, hc⟩, ⟨c :: s ++ middle ++ t, d, by simp, hd⟩⟩

theorem intercalate {sep : List Char} {ps : List (List Char)} (hp : ps ≠ [])
    (h : ∀ s ∈ ps, IsTight s) : IsTight (sep.intercalate ps) := by
  induction ps with
  | nil => exact absurd rfl hp
  | cons s ps ih =>
    have hs := h s List.mem_cons_self
    cases ps with
    | nil => rwa [List.intercalate_singleton]
    | cons s' ps =>
      rw [List.intercalate_cons_cons]
      exact hs.between sep (ih (List.cons_ne_nil _ _) fun t ht => h t (List.mem_cons_of_mem _ ht))

end IsTight

theorem length_le_intercalate (sep : List Char) {p : List Char} {ps : List (List Char)}
    (h : p ∈ ps) : p.length ≤ (sep.intercalate ps).length := by
  induction ps with
  | nil => exact absurd h List.not_mem_nil
  | cons q ps ih =>
    cases ps with
    | nil =>
      obtain rfl := List.mem_singleton.1 h
      exact Nat.le_of_eq (congrArg List.length List.intercalate_singleton.symm)
    | cons q' ps =>
      rw [List.intercalate_cons_cons, List.length_append, List.length_append]
      rcases List.mem_cons.1 h with rfl | hmore
      · omega
      · have hle := ih hmore
        omega

theorem strip?_eq_none_of_head? {c : Char} {s : List Char} (h : s.head? ≠ some c) (lead : List Char) :
    strip? (c :: lead) s = none := by
  cases s with
  | nil => rfl
  | cons d s => exact if_neg fun he => h (congrArg some he.symm)

theorem head?_append_cons_ne {c d : Char} {s : List Char} (hs : s.head? ≠ some c) (hd : d ≠ c)
    (rest : List Char) : (s ++ d :: rest).head? ≠ some c := by
  cases s with
  | nil => exact fun he => hd (Option.some.inj he)
  | cons e s => exact hs

section Keyword

variable {kw word rest : List Char}

theorem continuesWord_blank (rest : List Char) : continuesWord (' ' :: rest) = false := rfl

theorem continuesWord_of_isBlankText {s : List Char} (hs : isBlankText s = true) :
    continuesWord s = false := by
  cases s with
  | nil => rfl
  | cons c s =>
    rw [continuesWord, Bool.eq_false_iff]
    intro hc
    rw [isBlankText, List.all_cons, isBlank_of_isWordChar hc] at hs
    cases hs

/-- White space keeps what follows it apart from the word before. -/
theorem continuesWord_gap_append {gap : List Char} (hne : gap ≠ []) (hb : isBlankText gap = true)
    (s : List Char) : continuesWord (gap ++ s) = false := by
  cases gap with
  | nil => exact absurd rfl hne
  | cons c gap => exact continuesWord_of_isBlankText (s := c :: gap) hb

theorem keyword?_append (kw : List Char) (h : continuesWord rest = false) :
    keyword? kw (kw ++ rest) = some rest :=
  keyword?_eq_some_iff.2 ⟨rfl, h⟩

theorem forall_isWordChar_of_isIdentifier (h : isIdentifier word = true) :
    ∀ c ∈ word, isWordChar c = true := by
  cases word with
  | nil => cases h
  | cons c word =>
    simp only [isIdentifier, Bool.and_eq_true, List.all_eq_true] at h
    intro d hd
    rcases List.mem_cons.1 hd with rfl | hd
    · exact isWordChar_of_isWordStart h.1
    · exact h.2 d hd

theorem exists_cons_of_isIdentifier (h : isIdentifier word = true) :
    ∃ c more, word = c :: more ∧ isWordStart c = true := by
  cases word with
  | nil => cases h
  | cons c more =>
    rw [isIdentifier, Bool.and_eq_true] at h
    exact ⟨c, more, rfl, h.1⟩

theorem isWordChar_head_append (h : isIdentifier word = true) (rest : List Char) :
    ∀ c ∈ (word ++ rest).head?, isWordChar c = true := by
  obtain ⟨c, more, rfl, hc⟩ := exists_cons_of_isIdentifier h
  rintro d ⟨⟩
  exact isWordChar_of_isWordStart hc

theorem IsTight.of_isIdentifier (h : isIdentifier word = true) : IsTight word := by
  refine IsTight.of_forall ?_ fun c hc =>
    isBlank_of_isWordChar (forall_isWordChar_of_isIdentifier h c hc)
  intro hnil
  rw [hnil] at h
  cases h

/-- The front of a text up to where no word goes on is told by the text. -/
theorem takeWhile_isWordChar_append (hw : ∀ c ∈ word, isWordChar c = true)
    (hr : continuesWord rest = false) : (word ++ rest).takeWhile isWordChar = word := by
  rw [List.takeWhile_append_of_pos hw]
  cases rest with
  | nil => simp
  | cons c rest =>
    have hc : isWordChar c = false := hr
    simp [hc]

/-- A whole word in front that is not the keyword hides it. -/
theorem keyword?_eq_none_of_ne (hk : ∀ c ∈ kw, isWordChar c = true)
    (hw : ∀ c ∈ word, isWordChar c = true) (hr : continuesWord rest = false) (hne : word ≠ kw) :
    keyword? kw (word ++ rest) = none := by
  rw [Option.eq_none_iff_forall_ne_some]
  intro after h
  obtain ⟨he, ha⟩ := keyword?_eq_some_iff.1 h
  apply hne
  rw [← takeWhile_isWordChar_append hw hr, he, takeWhile_isWordChar_append hk ha]

/-- Behind a whole word in front that is the keyword, the text goes on as it does. -/
theorem eq_of_keyword?_append (hk : ∀ c ∈ kw, isWordChar c = true)
    (hw : ∀ c ∈ word, isWordChar c = true) (hr : continuesWord rest = false) {after : List Char}
    (h : keyword? kw (word ++ rest) = some after) : after = rest := by
  by_cases hne : word = kw
  · rw [hne, keyword?_append kw hr] at h
    exact (Option.some.inj h).symm
  · rw [keyword?_eq_none_of_ne hk hw hr hne] at h
    cases h

theorem continuesWord_append {s t : List Char} (hs : continuesWord s = false)
    (ht : continuesWord t = false) : continuesWord (s ++ t) = false := by
  cases s with
  | nil => exact ht
  | cons c s => exact hs

/-- Whether a keyword stands in front is told by the text up to where no word goes on. -/
theorem keyword?_append_right (hk : ∀ c ∈ kw, isWordChar c = true) {t : List Char}
    (ht : continuesWord t = false) (s : List Char) :
    keyword? kw (s ++ t) = (keyword? kw s).map (· ++ t) := by
  cases h : keyword? kw s with
  | some rest =>
    obtain ⟨rfl, hr⟩ := keyword?_eq_some_iff.1 h
    rw [List.append_assoc, keyword?_append kw (continuesWord_append hr ht), Option.map_some]
  | none =>
    rw [Option.map_none, Option.eq_none_iff_forall_ne_some]
    intro after ha
    obtain ⟨he, hc⟩ := keyword?_eq_some_iff.1 ha
    have hnone (rest : List Char) (hs : s = kw ++ rest) : continuesWord rest ≠ false := by
      intro hr
      rw [keyword?_eq_some_iff.2 ⟨hs, hr⟩] at h
      cases h
    obtain ⟨middle, hkw, htm⟩ | ⟨middle, hs, rfl⟩ := List.append_eq_append_iff.1 he
    · cases middle with
      | nil => exact hnone [] (by rw [hkw, List.append_nil, List.append_nil]) rfl
      | cons c middle =>
        rw [htm, List.cons_append, continuesWord,
          hk c (hkw ▸ List.mem_append_right s List.mem_cons_self)] at ht
        cases ht
    · refine hnone middle hs ?_
      cases middle with
      | nil => rfl
      | cons c middle => exact hc

theorem keyword?_eq_none_of_head {c k : Char} {s : List Char} (h : k ≠ c) :
    keyword? (k :: kw) (c :: s) = none := by
  simp [keyword?, strip?, h]

/-- No keyword begins with a character that no word has. -/
theorem keyword?_eq_none_of_not_isWordChar (hk : isIdentifier kw = true) {c : Char}
    (hc : isWordChar c = false) (s : List Char) : keyword? kw (c :: s) = none := by
  cases kw with
  | nil => cases hk
  | cons k kw =>
    have hword := forall_isWordChar_of_isIdentifier hk k List.mem_cons_self
    exact keyword?_eq_none_of_head (ne_of_isWordChar hword hc)

end Keyword

section Line

variable {s : List Char}

theorem lineFeeds_append (s t : List Char) : lineFeeds (s ++ t) = lineFeeds s + lineFeeds t :=
  List.count_append

theorem afterLine_append (h : '\n' ∉ s) (rest : List Char) : afterLine (s ++ '\n' :: rest) = rest := by
  induction s with
  | nil => rfl
  | cons c s ih =>
    rw [List.mem_cons, not_or] at h
    rw [List.cons_append, afterLine, if_neg (Ne.symm h.1), ih h.2]

theorem takeWhile_line_append (h : '\n' ∉ s) (rest : List Char) :
    (s ++ '\n' :: rest).takeWhile (· != '\n') = s := by
  have hs : ∀ c ∈ s, (c != '\n') = true := by
    intro c hc
    rw [bne_iff_ne]
    exact ne_of_mem_of_not_mem hc h
  rw [List.takeWhile_append_of_pos hs]
  simp

/-- A line ends at a line feed or at the end of the text. -/
theorem exists_line (s : List Char) : ∃ line, '\n' ∉ line ∧ s.takeWhile (· != '\n') = line ∧
    (s = line ++ '\n' :: afterLine s ∨ s = line ∧ afterLine s = []) := by
  induction s with
  | nil => exact ⟨[], List.not_mem_nil, rfl, .inr ⟨rfl, rfl⟩⟩
  | cons c s ih =>
    by_cases hc : c = '\n'
    · subst hc
      exact ⟨[], List.not_mem_nil, rfl, .inl rfl⟩
    · obtain ⟨line, hl, ht, hs⟩ := ih
      refine ⟨c :: line, ?_, ?_, ?_⟩
      · rw [List.mem_cons, not_or]
        exact ⟨Ne.symm hc, hl⟩
      · rw [List.takeWhile_cons_of_pos (by simpa using hc), ht]
      · rw [afterLine, if_neg hc]
        obtain hs | ⟨hs, ha⟩ := hs
        · exact .inl (by rw [List.cons_append, ← hs])
        · exact .inr ⟨by rw [← hs], ha⟩

end Line

end ApiSurface.Text
