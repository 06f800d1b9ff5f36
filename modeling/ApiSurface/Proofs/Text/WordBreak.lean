import ApiSurface.Proofs.Text

namespace ApiSurface.Text

/-- No word runs on from the end of `s` into `t`. -/
def IsWordBreak (s t : List Char) : Prop :=
  ∀ c ∈ s.getLast?, isWordChar c = true → continuesWord t = false

theorem continuesWord_left {s t : List Char} (h : continuesWord (s ++ t) = false) :
    continuesWord s = false := by
  cases s with
  | nil => rfl
  | cons c s => exact h

namespace IsWordBreak

variable {s t u : List Char}

theorem nil (t : List Char) : IsWordBreak [] t := fun _ hc => absurd hc (by simp)

theorem of_continuesWord (h : continuesWord t = false) : IsWordBreak s t := fun _ _ _ => h

theorem concat {c : Char} (hc : isWordChar c = false) (s t : List Char) :
    IsWordBreak (s ++ [c]) t := by
  intro d hd hword
  rw [List.getLast?_concat] at hd
  rw [← Option.some.inj hd, hc] at hword
  cases hword

theorem append (h : IsWordBreak t u) (hs : t = [] → IsWordBreak s u) : IsWordBreak (s ++ t) u := by
  intro c hc
  rw [Option.mem_def, List.getLast?_append, Option.or_eq_some_iff] at hc
  rcases hc with hc | ⟨hnone, hc⟩
  · exact h c hc
  · exact hs (List.getLast?_eq_none_iff.1 hnone) c hc

/-- A whole word may stand in front. -/
theorem word_append (h : IsWordBreak t u) (hw : continuesWord (t ++ u) = false) (s : List Char) :
    IsWordBreak (s ++ t) u := by
  refine h.append fun ht => of_continuesWord ?_
  rw [ht] at hw
  exact hw

theorem mark_append (h : IsWordBreak t u) {c : Char} (hc : isWordChar c = false) (s : List Char) :
    IsWordBreak (s ++ c :: t) u := by
  rw [List.append_cons]
  exact h.append fun _ => concat hc s u

theorem cons (h : IsWordBreak t u) {c : Char} (hc : isWordChar c = false) :
    IsWordBreak (c :: t) u := h.mark_append hc []

theorem blank_append (h : IsWordBreak t u) (hs : isBlankText s = true) :
    IsWordBreak (s ++ t) u := by
  refine h.append fun _ c hc hword => ?_
  have hblank := List.all_eq_true.1 hs c (List.mem_of_getLast? hc)
  rw [isBlank_of_isWordChar hword] at hblank
  cases hblank

theorem of_trimStart (h : IsWordBreak (trimStart s) t) : IsWordBreak s t := by
  obtain ⟨blank, hb, hs⟩ := exists_blank_append s
  rw [hs]
  exact h.blank_append hb

end IsWordBreak

section Cut

variable {s t u : List Char}

theorem trimStart_append_of_suffix (h : t <:+ trimStart (s ++ t)) :
    trimStart (s ++ t) = trimStart s ++ t := by
  by_cases hs : trimStart s = []
  · have hb := trimStart_eq_nil_iff.1 hs
    rw [trimStart_blank_append hb] at h ⊢
    rw [hs, List.nil_append]
    exact (trimStart_suffix t).eq_of_length_le h.length_le
  · exact trimStart_append hs t

theorem trimStart_eq_of_append (h : trimStart (s ++ t) = u ++ t) : trimStart s = u := by
  rw [trimStart_append_of_suffix (h ▸ List.suffix_append u t)] at h
  exact List.append_cancel_right h

theorem trimStart_append_of_cons {c : Char} (h : trimStart s = c :: u) (t : List Char) :
    trimStart (s ++ t) = c :: (u ++ t) := by
  rw [trimStart_append (h ▸ List.cons_ne_nil c u), h, List.cons_append]

theorem exists_trimStart_cons {c : Char} (h : trimStart (s ++ t) = c :: u)
    (hs : trimStart s ≠ []) : ∃ v, trimStart s = c :: v ∧ u = v ++ t := by
  rw [trimStart_append hs] at h
  cases hstart : trimStart s with
  | nil => exact absurd hstart hs
  | cons d v =>
    rw [hstart] at h
    obtain ⟨rfl, rfl⟩ := List.cons.inj h
    exact ⟨v, rfl, rfl⟩

/-- White space that is trimmed stands in the first part. -/
theorem exists_blank_of_trimStart (h : trimStart s = t ++ u) : ∃ blank : List Char,
    isBlankText blank = true ∧ s = blank ++ t ++ u ∧ trimStart (blank ++ t) = t := by
  obtain ⟨blank, hb, hs⟩ := exists_blank_append s
  refine ⟨blank, hb, by rw [List.append_assoc, ← h, ← hs], ?_⟩
  rw [trimStart_blank_append hb]
  cases t with
  | nil => rfl
  | cons c t =>
    have htrim := trimStart_trimStart s
    rw [h] at htrim
    by_cases hc : isBlank c = true
    · have hlength := congrArg List.length htrim
      rw [List.cons_append, trimStart_cons_blank hc] at hlength
      have hle := length_trimStart_le (t ++ u)
      rw [List.length_cons] at hlength
      omega
    · exact trimStart_cons (Bool.eq_false_iff.2 hc)

variable {kw : List Char}

theorem keyword?_left (h : keyword? kw (s ++ t) = some (u ++ t)) : keyword? kw s = some u := by
  obtain ⟨he, hw⟩ := keyword?_eq_some_iff.1 h
  rw [← List.append_assoc] at he
  exact keyword?_eq_some_iff.2 ⟨List.append_cancel_right he, continuesWord_left hw⟩

/-- What is there of a text tells whether a keyword stands in front of it. -/
theorem keyword?_append_of_isWordBreak (hk : ∀ c ∈ kw, isWordChar c = true) (hs : s ≠ [])
    (h : IsWordBreak s t) : keyword? kw (s ++ t) = (keyword? kw s).map (· ++ t) := by
  obtain ⟨c, hlast⟩ := Option.ne_none_iff_exists'.1 (mt List.getLast?_eq_none_iff.1 hs)
  obtain ⟨init, rfl⟩ := List.getLast?_eq_some_iff.1 hlast
  by_cases hc : isWordChar c = true
  · exact keyword?_append_right hk (h c hlast hc) _
  · have hmark (u : List Char) : continuesWord (c :: u) = false := Bool.eq_false_iff.2 hc
    have hwhole := keyword?_append_right hk (hmark t) init
    have hpart := keyword?_append_right hk (hmark []) init
    rw [List.append_assoc, List.singleton_append, hwhole, hpart, Option.map_map]
    congr 1
    funext rest
    exact List.append_cons rest c t

theorem keyword?_eq_none_left (hk : ∀ c ∈ kw, isWordChar c = true) (hs : s ≠ [])
    (hb : IsWordBreak s t) (h : keyword? kw (s ++ t) = none) : keyword? kw s = none := by
  rw [keyword?_append_of_isWordBreak hk hs hb, Option.map_eq_none_iff] at h
  exact h

end Cut

end ApiSurface.Text
