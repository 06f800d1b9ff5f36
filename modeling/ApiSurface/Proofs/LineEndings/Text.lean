import ApiSurface.Fault
import ApiSurface.Proofs.Text
import Mathlib.Data.List.Induction
import Mathlib.Data.Option.Basic

namespace ApiSurface.Text

/-- The text with a carriage return in front of each line feed. -/
def crlf (s : List Char) : List Char :=
  s.flatMap fun c => if c = '\n' then ['\r', '\n'] else [c]

def crlfString (s : String) : String := String.ofList (crlf s.toList)

/-- `s'` is `s` with a carriage return in front of each line feed; `s` has none of its own and at
most `n` characters. -/
inductive SameLines : (n : Nat) → List Char → List Char → Prop
  | nil {n : Nat} : SameLines n [] []
  | char {n : Nat} {c : Char} {s s' : List Char} (feed : c ≠ '\n') (ret : c ≠ '\r')
    (more : SameLines n s s') : SameLines (n + 1) (c :: s) (c :: s')
  | feed {n : Nat} {s s' : List Char} (more : SameLines n s s') :
    SameLines (n + 1) ('\n' :: s) ('\r' :: '\n' :: s')

/-- A text of one line, the same under both endings. -/
def IsUnbroken (s : List Char) : Prop := ∀ c ∈ s, c ≠ '\n' ∧ c ≠ '\r'

instance (s : List Char) : Decidable (IsUnbroken s) := inferInstanceAs (Decidable (∀ c ∈ s, _))

theorem isUnbroken_nil : IsUnbroken [] := fun _ h => absurd h List.not_mem_nil

theorem IsUnbroken.cons {c : Char} {s : List Char} (hn : c ≠ '\n') (hr : c ≠ '\r')
    (h : IsUnbroken s) : IsUnbroken (c :: s) := by
  intro d hd
  rcases List.mem_cons.1 hd with rfl | hd
  · exact ⟨hn, hr⟩
  · exact h d hd

theorem IsUnbroken.not_mem {s : List Char} (h : IsUnbroken s) : '\n' ∉ s := fun hm => (h _ hm).1 rfl

section Crlf

variable {s t : List Char} {c : Char}

@[simp] theorem crlf_nil : crlf [] = [] := rfl

@[simp] theorem crlf_feed (s : List Char) : crlf ('\n' :: s) = '\r' :: '\n' :: crlf s := rfl

@[simp] theorem crlf_cons (h : c ≠ '\n') (s : List Char) : crlf (c :: s) = c :: crlf s := by
  simp [crlf, h]

@[simp] theorem crlf_append (s t : List Char) : crlf (s ++ t) = crlf s ++ crlf t :=
  List.flatMap_append

theorem crlf_eq_self (h : '\n' ∉ s) : crlf s = s := by
  induction s with
  | nil => rfl
  | cons c s ih =>
    rw [crlf_cons (List.ne_of_not_mem_cons h).symm, ih (List.not_mem_of_not_mem_cons h)]

theorem IsUnbroken.crlf_eq (h : IsUnbroken s) : crlf s = s := crlf_eq_self h.not_mem

@[simp] theorem crlfString_append (s t : String) :
    crlfString (s ++ t) = crlfString s ++ crlfString t := by
  simp [crlfString]

@[simp] theorem crlfString_ofList (s : List Char) :
    crlfString (String.ofList s) = String.ofList (crlf s) := by
  simp [crlfString]

theorem crlfString_eq_self {s : String} (h : '\n' ∉ s.toList) : crlfString s = s := by
  rw [crlfString, crlf_eq_self h, String.ofList_toList]

end Crlf

namespace SameLines

variable {n m : Nat} {s s' t t' : List Char} {c : Char}

theorem of_crlf (h : '\r' ∉ s) : SameLines s.length s (crlf s) := by
  induction s with
  | nil => exact nil
  | cons c s ih =>
    have hs := ih (List.not_mem_of_not_mem_cons h)
    by_cases hc : c = '\n'
    · subst hc
      exact feed hs
    · rw [crlf_cons hc]
      exact char hc (List.ne_of_not_mem_cons h).symm hs

theorem eq_crlf (h : SameLines n s s') : s' = crlf s := by
  induction h with
  | nil => rfl
  | char hn _ _ ih => rw [crlf_cons hn, ih]
  | feed _ ih => rw [crlf_feed, ih]

theorem not_mem (h : SameLines n s s') : '\r' ∉ s := by
  induction h with
  | nil => exact List.not_mem_nil
  | char _ hr _ ih => exact List.not_mem_cons_of_ne_of_not_mem hr.symm ih
  | feed _ ih => exact List.not_mem_cons_of_ne_of_not_mem (by decide) ih

theorem length_le (h : SameLines n s s') : s.length ≤ n := by
  induction h with
  | nil => exact Nat.zero_le _
  | char _ _ _ ih => exact Nat.succ_le_succ ih
  | feed _ ih => exact Nat.succ_le_succ ih

theorem length_le_length (h : SameLines n s s') : s.length ≤ s'.length := by
  induction h with
  | nil => exact Nat.le_refl _
  | char _ _ _ ih => exact Nat.succ_le_succ ih
  | feed _ ih => exact Nat.succ_le_succ (Nat.le_succ_of_le ih)

theorem mono (h : SameLines n s s') (hm : n ≤ m) : SameLines m s s' := by
  induction h generalizing m with
  | nil => exact nil
  | char hn hr _ ih =>
    obtain ⟨m, rfl⟩ := Nat.exists_eq_succ_of_ne_zero (Nat.ne_zero_of_lt hm)
    exact char hn hr (ih (Nat.le_of_succ_le_succ hm))
  | feed _ ih =>
    obtain ⟨m, rfl⟩ := Nat.exists_eq_succ_of_ne_zero (Nat.ne_zero_of_lt hm)
    exact feed (ih (Nat.le_of_succ_le_succ hm))

theorem of_eq_crlf (h : s' = crlf s) (hr : '\r' ∉ s) (hn : s.length ≤ n) : SameLines n s s' :=
  h ▸ (of_crlf hr).mono hn

theorem of_length (h : SameLines n s s') : SameLines s.length s s' :=
  of_eq_crlf h.eq_crlf h.not_mem (Nat.le_refl _)

theorem cons_left (h : SameLines n (c :: s) s') (hc : c ≠ '\n') :
    ∃ t, s' = c :: t ∧ SameLines (n - 1) s t := by
  cases h with
  | char _ _ more => exact ⟨_, rfl, more⟩
  | feed => exact absurd rfl hc

theorem cons_right (h : SameLines n s (c :: s')) (hc : c ≠ '\r') :
    ∃ t, s = c :: t ∧ SameLines (n - 1) t s' := by
  cases h with
  | char _ _ more => exact ⟨_, rfl, more⟩
  | feed => exact absurd rfl hc

/-- A character that the first text does not begin with, the second does not begin with either. -/
theorem false_of_cons (h : SameLines n s (c :: s')) (hc : c ≠ '\r') (hs : ∀ t, s = c :: t → False) :
    False := by
  obtain ⟨t, rfl, -⟩ := h.cons_right hc
  exact hs t rfl

/-- Both texts begin with `c`, or neither does. -/
theorem head_cases (h : SameLines n s s') (hn : c ≠ '\n') (hr : c ≠ '\r') :
    (∃ t t', s = c :: t ∧ s' = c :: t' ∧ SameLines (n - 1) t t') ∨
      (∀ t, s = c :: t → False) ∧ ∀ t, s' = c :: t → False := by
  by_cases hs : ∃ t, s = c :: t
  · obtain ⟨t, rfl⟩ := hs
    obtain ⟨t', rfl, ht⟩ := h.cons_left hn
    exact .inl ⟨t, t', rfl, rfl, ht⟩
  · have hno : ∀ t, s = c :: t → False := fun t ht => hs ⟨t, ht⟩
    refine .inr ⟨hno, ?_⟩
    rintro t rfl
    exact h.false_of_cons hr hno

theorem head?_eq_some_iff (h : SameLines n s s') (hn : c ≠ '\n') (hr : c ≠ '\r') :
    s'.head? = some c ↔ s.head? = some c := by
  cases h with
  | nil => exact Iff.rfl
  | char => exact Iff.rfl
  | feed => simp [hn.symm, hr.symm]

theorem head?_not_mem (h : SameLines n s s') {marks : List Char} (hr : '\r' ∉ marks)
    (hs : ∀ c ∈ s.head?, c ∉ marks) : ∀ c ∈ s'.head?, c ∉ marks := by
  cases h with
  | nil => exact hs
  | char => exact hs
  | feed =>
    rintro c ⟨⟩
    exact hr

theorem eq_nil_iff (h : SameLines n s s') : s' = [] ↔ s = [] := by
  cases h <;> simp

theorem isEmpty_eq (h : SameLines n s s') : s'.isEmpty = s.isEmpty := by
  cases h <;> rfl

/-- Both texts begin alike as far as a test sees that takes the two characters of an ending for the
same. -/
theorem any_head? (h : SameLines n s s') {p : Char → Bool} (hp : p '\r' = p '\n') :
    s'.head?.any p = s.head?.any p := by
  cases h with
  | nil => rfl
  | char => rfl
  | feed => exact hp

theorem dropWhile (h : SameLines n s s') {p : Char → Bool} (hp : p '\r' = p '\n') :
    SameLines n (s.dropWhile p) (s'.dropWhile p) := by
  induction h with
  | nil => exact nil
  | @char n c s s' hn hr more ih =>
    simp only [List.dropWhile_cons]
    split
    · exact ih.mono (Nat.le_succ _)
    · exact char hn hr more
  | feed more ih =>
    simp only [List.dropWhile_cons, hp]
    split
    · exact ih.mono (Nat.le_succ _)
    · exact feed more

theorem takeWhile (h : SameLines n s s') {p : Char → Bool} (hp : p '\r' = p '\n') :
    SameLines n (s.takeWhile p) (s'.takeWhile p) := by
  induction h with
  | nil => exact nil
  | @char n c s s' hn hr more ih =>
    simp only [List.takeWhile_cons]
    split
    · exact char hn hr ih
    · exact nil
  | feed more ih =>
    simp only [List.takeWhile_cons, hp]
    split
    · exact feed ih
    · exact nil

/-- A search for one character ends in both texts in front of it, or at the end. -/
theorem dropWhile_ne (h : SameLines n s s') (hn : c ≠ '\n') (hr : c ≠ '\r') :
    s.dropWhile (· != c) = [] ∧ s'.dropWhile (· != c) = [] ∨
      ∃ t t', s.dropWhile (· != c) = c :: t ∧ s'.dropWhile (· != c) = c :: t' ∧
        SameLines (n - 1) t t' := by
  have hd := h.dropWhile (p := (· != c)) ((bne_iff_ne.2 hr.symm).trans (bne_iff_ne.2 hn.symm).symm)
  cases hs : s.dropWhile (· != c) with
  | nil => exact .inl ⟨rfl, (hs ▸ hd).eq_nil_iff.2 rfl⟩
  | cons d t =>
    have hhead := List.head?_dropWhile_not (· != c) s
    rw [hs] at hhead hd
    obtain rfl : d = c := by simpa using hhead
    obtain ⟨t', hs', ht⟩ := hd.cons_left hn
    exact .inr ⟨t, t', rfl, hs', ht⟩

/-- A run of characters that ends with its line is the same in both texts. -/
theorem takeWhile_eq (h : SameLines n s s') {p : Char → Bool} (hn : p '\n' = false)
    (hr : p '\r' = false) : s'.takeWhile p = s.takeWhile p ∧ IsUnbroken (s.takeWhile p) := by
  induction h with
  | nil => exact ⟨rfl, isUnbroken_nil⟩
  | @char n c s s' hcn hcr more ih =>
    simp only [List.takeWhile_cons]
    split
    · exact ⟨by rw [ih.1], ih.2.cons hcn hcr⟩
    · exact ⟨rfl, isUnbroken_nil⟩
  | feed => simp [hn, hr, IsUnbroken]

theorem trimStart (h : SameLines n s s') : SameLines n (trimStart s) (trimStart s') :=
  h.dropWhile rfl

end SameLines

theorem dropEndWhile_concat (p : Char → Bool) (s : List Char) (c : Char) :
    dropEndWhile p (s ++ [c]) = if p c then dropEndWhile p s else s ++ [c] := by
  by_cases hc : p c = true <;> simp [dropEndWhile, hc]

theorem trimEnd_crlf (s : List Char) : trimEnd (crlf s) = crlf (trimEnd s) := by
  induction s using List.reverseRecOn with
  | nil => rfl
  | append_singleton s c ih =>
    simp only [trimEnd, crlf_append, dropEndWhile_concat] at ih ⊢
    by_cases hc : c = '\n'
    · subst hc
      rw [crlf_feed, crlf_nil, List.append_cons, dropEndWhile_concat, dropEndWhile_concat,
        if_pos (by decide), if_pos (by decide), if_pos (by decide), ih]
    · rw [crlf_cons hc, crlf_nil, dropEndWhile_concat]
      split
      · exact ih
      · rw [crlf_append, crlf_cons hc, crlf_nil]

namespace SameLines

variable {n : Nat} {s s' : List Char}

theorem of_isPrefix (h : SameLines n s s') {t : List Char} (ht : t <+: s) :
    SameLines n t (crlf t) :=
  of_eq_crlf rfl (fun hr => h.not_mem (ht.subset hr)) (Nat.le_trans ht.length_le h.length_le)

theorem trimEnd (h : SameLines n s s') : SameLines n (trimEnd s) (trimEnd s') := by
  rw [h.eq_crlf, trimEnd_crlf]
  exact h.of_isPrefix (dropEndWhile_isPrefix _ s)

theorem trim (h : SameLines n s s') : SameLines n (trim s) (trim s') := h.trimStart.trimEnd

/-- Past a lead on one line, the rests are alike. -/
theorem strip? (h : SameLines n s s') (lead : List Char) (hl : IsUnbroken lead) :
    Option.Rel (SameLines (n - lead.length)) (strip? lead s) (strip? lead s') := by
  induction lead generalizing n s s' with
  | nil => exact .some h
  | cons a lead ih =>
    have ha := hl a List.mem_cons_self
    have hlead : IsUnbroken lead := fun c hc => hl c (List.mem_cons_of_mem a hc)
    cases h with
    | nil => exact .none
    | @char n c s s' hn hr more =>
      simp only [Text.strip?, List.length_cons, Nat.add_sub_add_right]
      split
      · exact ih more hlead
      · exact .none
    | feed more =>
      simp only [Text.strip?, if_neg ha.1, if_neg ha.2]
      exact .none

theorem startsWith_eq (h : SameLines n s s') (lead : List Char) (hl : IsUnbroken lead) :
    startsWith lead s' = startsWith lead s := by
  have hs := h.strip? lead hl
  unfold startsWith
  generalize Text.strip? lead s = found, Text.strip? lead s' = found' at hs ⊢
  cases hs <;> rfl

theorem continuesWord_eq (h : SameLines n s s') : continuesWord s' = continuesWord s := by
  cases h <;> rfl

theorem keyword? (h : SameLines n s s') (kw : List Char) (hk : IsUnbroken kw) :
    Option.Rel (SameLines (n - kw.length)) (keyword? kw s) (keyword? kw s') := by
  have hs := h.strip? kw hk
  unfold Text.keyword?
  generalize Text.strip? kw s = found, Text.strip? kw s' = found' at hs ⊢
  cases hs with
  | none => exact .none
  | some hs =>
    simp only [Option.filter, hs.continuesWord_eq]
    split
    · exact .some hs
    · exact .none

theorem isSome_keyword? (h : SameLines n s s') (kw : List Char) (hk : IsUnbroken kw) :
    (Text.keyword? kw s').isSome = (Text.keyword? kw s).isSome := by
  have hs := h.keyword? kw hk
  generalize Text.keyword? kw s = found, Text.keyword? kw s' = found' at hs ⊢
  cases hs <;> rfl

theorem word? (h : SameLines n s s') :
    Option.Rel (fun p p' => p'.1 = p.1 ∧ IsUnbroken p.1 ∧ SameLines (n - 1) p.2 p'.2)
      (word? s) (word? s') := by
  cases h with
  | nil => exact .none
  | @char n c s s' hn hr more =>
    simp only [Text.word?]
    split
    · obtain ⟨ht, hu⟩ := more.takeWhile_eq (p := isWordChar) (by decide) (by decide)
      exact .some ⟨by rw [ht], hu.cons hn hr, more.dropWhile (by decide)⟩
    · exact .none
  | feed => exact .none

theorem firstLine_eq (h : SameLines n s s') :
    firstLine s' = firstLine s ∧ IsUnbroken (firstLine s) := by
  induction h with
  | nil => exact ⟨rfl, isUnbroken_nil⟩
  | @char n c s s' hn hr more ih =>
    have hline (t : List Char) : firstLine (c :: t) = c :: firstLine t := by
      simp [firstLine, hr]
    rw [hline, hline, ih.1]
    exact ⟨rfl, ih.2.cons hn hr⟩
  | feed => exact ⟨rfl, isUnbroken_nil⟩

theorem afterLine (h : SameLines n s s') : SameLines n (afterLine s) (afterLine s') := by
  induction h with
  | nil => exact nil
  | char hn hr more ih =>
    simp only [Text.afterLine, if_neg hn]
    exact ih.mono (Nat.le_succ _)
  | feed more => exact more.mono (Nat.le_succ _)

theorem afterMark (h : SameLines n s s') {mark : List Char} (hm : IsUnbroken mark)
    (hne : mark ≠ []) : SameLines n (afterMark mark s) (afterMark mark s') := by
  induction h with
  | nil => exact nil
  | @char n c s s' hn hr more ih =>
    have hs := (char hn hr more).strip? mark hm
    simp only [Text.afterMark]
    generalize Text.strip? mark (c :: s) = found, Text.strip? mark (c :: s') = found' at hs ⊢
    cases hs with
    | none => exact ih.mono (Nat.le_succ _)
    | some hs => exact hs.mono (Nat.sub_le _ _)
  | feed more ih =>
    obtain ⟨a, mark, rfl⟩ := List.exists_cons_of_ne_nil hne
    have ha := hm a List.mem_cons_self
    simp only [Text.afterMark, Text.strip?, if_neg ha.1, if_neg ha.2]
    exact ih.mono (Nat.le_succ _)

theorem lineFeeds_eq (h : SameLines n s s') : lineFeeds s' = lineFeeds s := by
  induction h with
  | nil => rfl
  | char _ _ _ ih =>
    simp only [lineFeeds] at ih
    simp only [lineFeeds, List.count_cons, ih]
  | feed _ ih =>
    simp only [lineFeeds] at ih
    simp [lineFeeds, ih]

theorem lineAt_eq (h : SameLines n s s') {t t' : List Char} (ht : SameLines m t t') (line : Nat) :
    lineAt line s' t' = lineAt line s t := by
  rw [lineAt, lineAt, h.lineFeeds_eq, ht.lineFeeds_eq]

end SameLines

end ApiSurface.Text
