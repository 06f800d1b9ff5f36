import ApiSurface.Proofs.Text
import Mathlib.Data.List.DropRight

namespace ApiSurface.Text

variable {front s back : List Char}

theorem dropEndWhile_dropEndWhile (p : Char → Bool) (s : List Char) :
    dropEndWhile p (dropEndWhile p s) = dropEndWhile p s := by
  rw [dropEndWhile, dropEndWhile, List.reverse_reverse, List.dropWhile_idempotent]

theorem trimEnd_trimEnd (s : List Char) : trimEnd (trimEnd s) = trimEnd s :=
  dropEndWhile_dropEndWhile isBlank s

theorem trimStart_trim (s : List Char) : trimStart (trim s) = trim s := by
  obtain ⟨rest, hrest⟩ := dropEndWhile_isPrefix isBlank (trimStart s)
  refine trimStart_eq_self fun c hc => ?_
  have hhead : (trimStart s).head? = some c := by
    rw [← hrest, List.head?_append]
    exact Option.or_eq_some_iff.2 (.inl hc)
  have h := List.head?_dropWhile_not isBlank s
  rw [← trimStart, hhead] at h
  exact h

theorem trim_trim (s : List Char) : trim (trim s) = trim s := by
  rw [trim, trimStart_trim]
  exact trimEnd_trimEnd (trimStart s)

theorem exists_append_blank (s : List Char) :
    ∃ back, isBlankText back = true ∧ s = trimEnd s ++ back := by
  refine ⟨(s.reverse.takeWhile isBlank).reverse, ?_, ?_⟩
  · rw [isBlankText, List.all_reverse]
    exact List.all_takeWhile
  · rw [trimEnd, dropEndWhile, ← List.reverse_append, List.takeWhile_append_dropWhile,
      List.reverse_reverse]

/-- What trimming drops from either end is white space. -/
theorem exists_trim_append (s : List Char) : ∃ front back : List Char,
    isBlankText front = true ∧ isBlankText back = true ∧ s = front ++ (trim s ++ back) := by
  obtain ⟨front, hfront, hs⟩ := exists_blank_append s
  obtain ⟨back, hback, hmiddle⟩ := exists_append_blank (trimStart s)
  refine ⟨front, back, hfront, hback, ?_⟩
  rw [trim, ← hmiddle]
  exact hs

theorem trimEnd_append_blank (h : isBlankText back = true) (s : List Char) :
    trimEnd (s ++ back) = trimEnd s := by
  have hback : ∀ c ∈ back.reverse, isBlank c = true := by
    intro c hc
    exact List.all_eq_true.1 h c (List.mem_reverse.1 hc)
  rw [trimEnd, dropEndWhile, List.reverse_append, List.dropWhile_append_of_pos hback]
  rfl

theorem trim_blank_append (h : isBlankText front = true) (s : List Char) :
    trim (front ++ s) = trim s := by
  rw [trim, trimStart_blank_append h, trim]

theorem trim_append_blank (h : isBlankText back = true) (s : List Char) :
    trim (s ++ back) = trim s := by
  by_cases hs : trimStart s = []
  · have hblank := isBlankText_append (trimStart_eq_nil_iff.1 hs) h
    rw [trim_of_isBlankText hblank, trim_of_isBlankText (trimStart_eq_nil_iff.1 hs)]
  · rw [trim, trimStart_append hs, trimEnd_append_blank h, trim]

theorem trim_trimStart (s : List Char) : trim (trimStart s) = trim s := by
  rw [trim, trimStart_trimStart, trim]

theorem trim_trimEnd (s : List Char) : trim (trimEnd s) = trim s := by
  obtain ⟨back, hback, hs⟩ := exists_append_blank s
  conv_rhs => rw [hs, trim_append_blank hback]

theorem trim_eq_nil_iff : trim s = [] ↔ isBlankText s = true := by
  refine ⟨fun h => ?_, trim_of_isBlankText⟩
  obtain ⟨front, back, hfront, hback, hs⟩ := exists_trim_append s
  rw [hs, h, List.nil_append]
  exact isBlankText_append hfront hback

theorem isTight_trim (h : trim s ≠ []) : IsTight (trim s) where
  first := by
    obtain ⟨c, t, hs⟩ := List.exists_cons_of_ne_nil h
    refine ⟨c, t, hs, Bool.eq_false_iff.2 fun hc => ?_⟩
    have hkept := trimStart_trim s
    rw [hs, trimStart_cons_blank hc] at hkept
    have hshort := length_trimStart_le t
    rw [hkept, List.length_cons] at hshort
    omega
  last := by
    refine ⟨(trim s).dropLast, (trim s).getLast h, (List.dropLast_concat_getLast h).symm,
      Bool.eq_false_iff.2 fun hc => ?_⟩
    have hblank : isBlankText [(trim s).getLast h] = true := by
      rw [isBlankText, List.all_cons, hc, List.all_nil, Bool.and_true]
    have hkept := trimEnd_append_blank hblank (trim s).dropLast
    rw [List.dropLast_concat_getLast h] at hkept
    have hshort : (trimEnd (trim s).dropLast).length ≤ (trim s).dropLast.length :=
      (dropEndWhile_isPrefix isBlank _).length_le
    rw [← hkept, trim, trimEnd_trimEnd, ← trim, List.length_dropLast] at hshort
    have hpos := List.length_pos_iff.2 h
    omega

/-- White space behind a text does not change whether it begins with something that has none. -/
theorem startsWith_append_blank {lead : List Char} (hl : ∀ c ∈ lead, isBlank c = false)
    (hb : isBlankText back = true) (s : List Char) :
    startsWith lead (s ++ back) = startsWith lead s := by
  induction lead generalizing s with
  | nil => rfl
  | cons a lead ih =>
    have hlead : ∀ c ∈ lead, isBlank c = false := fun c hc => hl c (List.mem_cons_of_mem a hc)
    cases s with
    | nil =>
      have hback : back.head? ≠ some a := by
        intro h
        have ha : isBlank a = true := List.all_eq_true.1 hb a (List.mem_of_head? h)
        rw [hl a List.mem_cons_self] at ha
        cases ha
      rw [List.nil_append, startsWith, strip?_eq_none_of_head? hback]
      rfl
    | cons c s =>
      rw [List.cons_append, startsWith, startsWith, strip?, strip?]
      split
      · exact ih hlead s
      · rfl

end ApiSurface.Text
