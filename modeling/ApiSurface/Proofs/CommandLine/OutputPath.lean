import ApiSurface.CommandLine.OutputPath
import ApiSurface.Proofs.FileTree.Path

namespace ApiSurface.CommandLine

theorem outputPath_eq_ok_iff {path safe : String} :
    outputPath path = .ok safe ↔ Path.StaysBelow path ∧ safe = path := by
  unfold outputPath
  constructor
  · intro h
    repeat' split at h
    · cases h
    · cases h
    · cases h
    · rename_i hnul habsolute hup
      exact ⟨⟨Bool.eq_false_iff.2 hnul, Bool.eq_false_iff.2 habsolute, Bool.eq_false_iff.2 hup⟩,
        (Except.ok.inj h).symm⟩
  · rintro ⟨⟨hnul, habsolute, hup⟩, rfl⟩
    simp [hnul, habsolute, hup]

theorem harmless_harmless (c : Char) : harmless (harmless c) = harmless c := by
  unfold harmless
  by_cases hc : (c.isAlphanum || c == '_' || c == '-') = true
  · rw [if_pos hc, if_pos hc]
  · rw [if_neg hc]
    rfl

/-- The name made for a method has none of the characters that are replaced in it. -/
theorem not_mem_defaultDotFile {c : Char} (method : String) (hc : harmless c ≠ c)
    (hdot : c ∉ ".dot".toList) : c ∉ (defaultDotFile method).toList := by
  rw [defaultDotFile, String.toList_append, List.mem_append, String.toList_map, not_or]
  refine ⟨fun hm => ?_, hdot⟩
  obtain ⟨d, -, rfl⟩ := List.mem_map.1 hm
  exact hc (harmless_harmless d)

theorem defaultDotFile_ne {name : String} (method : String) (h : name.toList.getLast? ≠ some 't') :
    defaultDotFile method ≠ name := by
  rintro rfl
  apply h
  rw [defaultDotFile, String.toList_append, List.getLast?_append]
  rfl

/-- The name made for a method is a single segment. -/
theorem segments_defaultDotFile (method : String) :
    Path.segments (defaultDotFile method) = [defaultDotFile method] :=
  Path.segments_of_not_mem (not_mem_defaultDotFile method (by decide) (by decide))

theorem steps_defaultDotFile (method : String) :
    Path.steps (defaultDotFile method) = [defaultDotFile method] := by
  have hempty : defaultDotFile method ≠ "" := defaultDotFile_ne method (by decide)
  have hdot : defaultDotFile method ≠ "." := defaultDotFile_ne method (by decide)
  rw [Path.steps, segments_defaultDotFile]
  simp [Path.isIdle_eq_false_iff.2 ⟨hempty, hdot⟩]

theorem staysBelow_defaultDotFile (method : String) : Path.StaysBelow (defaultDotFile method) where
  noNul := by
    have hnul := not_mem_defaultDotFile (c := '\x00') method (by decide) (by decide)
    simpa [Path.hasNul] using hnul
  relative := by
    have hslash := not_mem_defaultDotFile (c := '/') method (by decide) (by decide)
    rw [Path.isAbsolute, beq_eq_false_iff_ne]
    exact mt List.mem_of_mem_head? hslash
  noUp := by
    have hup : defaultDotFile method ≠ ".." := defaultDotFile_ne method (by decide)
    rw [Path.stepsUp, segments_defaultDotFile]
    simp [Path.upSegment, hup.symm]

end ApiSurface.CommandLine
