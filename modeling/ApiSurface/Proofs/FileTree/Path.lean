import ApiSurface.Proofs.FileTree.Write

namespace ApiSurface

namespace Path

/-- The path stays below the directory it is seen from: it is relative and never steps up. -/
structure StaysBelow (path : String) : Prop where
  noNul : hasNul path = false
  relative : isAbsolute path = false
  noUp : stepsUp path = false

theorem isUsable_iff {path : String} : isUsable path = true ↔ path.utf8ByteSize ≤ 4095 :=
  decide_eq_true_iff

/-- A slash separates the segments in front of it from those behind it. -/
theorem segmentsOf_slash (s t : List Char) : segmentsOf (s ++ '/' :: t) =
    ((segmentsOf s).1, (segmentsOf s).2 ++ (segmentsOf t).1 :: (segmentsOf t).2) := by
  induction s with
  | nil => rfl
  | cons c s ih =>
    rw [List.cons_append, segmentsOf, ih, segmentsOf]
    by_cases hc : c = '/' <;> simp [hc]

theorem segments_slash (base name : String) :
    segments (base ++ "/" ++ name) = segments base ++ segments name := by
  have hchars : (base ++ "/" ++ name).toList = base.toList ++ '/' :: name.toList := by simp
  rw [segments, hchars, segmentsOf_slash]
  simp [segments]

theorem segmentsOf_of_not_mem {s : List Char} (h : '/' ∉ s) : segmentsOf s = (s, []) := by
  induction s with
  | nil => rfl
  | cons c s ih =>
    rw [List.mem_cons, not_or] at h
    rw [segmentsOf, ih h.2]
    exact if_neg (Ne.symm h.1)

/-- A name without a slash is one segment. -/
theorem segments_of_not_mem {name : String} (h : '/' ∉ name.toList) : segments name = [name] := by
  rw [segments, segmentsOf_of_not_mem h]
  simp

theorem segments_ne_nil (path : String) : segments path ≠ [] := by
  rw [segments]
  simp

/-- Names without a slash are the segments of the path that slashes make of them. -/
theorem segments_intercalate {names : List String} (hne : names ≠ [])
    (h : ∀ name ∈ names, '/' ∉ name.toList) : segments ("/".intercalate names) = names := by
  induction names with
  | nil => exact absurd rfl hne
  | cons name names ih =>
    obtain ⟨hname, hnames⟩ := List.forall_mem_cons.1 h
    cases names with
    | nil => rw [String.intercalate_singleton, segments_of_not_mem hname]
    | cons second more =>
      rw [String.intercalate_cons_cons, segments_slash, segments_of_not_mem hname,
        ih (List.cons_ne_nil _ _) hnames]
      rfl

/-- A name joined to a directory has its segments behind those of the directory. -/
theorem exists_segments_join (base : String) {name : String} (h : isAbsolute name = false) :
    ∃ front idle, segments (join base name) = front ++ segments name ∧
      segments base = front ++ idle ∧ ∀ segment ∈ idle, isIdle segment = true := by
  unfold join
  by_cases hbase : base = ""
  · subst hbase
    exact ⟨[], [""], by simp [h], rfl, by simp [isIdle]⟩
  · rw [if_neg (by simp [h, hbase])]
    by_cases hslash : endsInSlash base = true
    · obtain ⟨s, hs⟩ : ∃ s, base.toList = s ++ ['/'] :=
        List.getLast?_eq_some_iff.1 (beq_iff_eq.1 hslash)
      obtain rfl : base = String.ofList s ++ "/" := by
        apply String.toList_injective
        rw [hs]
        simp
      have hend := segments_slash (String.ofList s) ""
      rw [String.append_empty] at hend
      exact ⟨segments (String.ofList s), [""], by rw [if_pos hslash, segments_slash], hend,
        by simp [isIdle]⟩
    · exact ⟨segments base, [], by rw [if_neg hslash, segments_slash], by simp, by simp⟩

theorem isAbsolute_join (base : String) {name : String} (h : isAbsolute name = false) :
    isAbsolute (join base name) = isAbsolute base := by
  unfold join
  by_cases hbase : base = ""
  · subst hbase
    have hempty : isAbsolute "" = false := rfl
    simp [h, hempty]
  · obtain ⟨c, s, hs⟩ := List.exists_cons_of_ne_nil (mt String.toList_eq_nil_iff.1 hbase)
    rw [if_neg (by simp [h, hbase])]
    split <;> simp [isAbsolute, hs]

theorem utf8ByteSize_join_le (base : String) {name : String} (h : isAbsolute name = false) :
    base.utf8ByteSize + name.utf8ByteSize ≤ (join base name).utf8ByteSize := by
  unfold join
  by_cases hbase : base = ""
  · subst hbase
    simp [h]
  · rw [if_neg (by simp [h, hbase])]
    split
    · exact Nat.le_of_eq (String.utf8ByteSize_append ..).symm
    · rw [String.utf8ByteSize_append, String.utf8ByteSize_append]
      omega

theorem filter_idle {idle : List String} (h : ∀ segment ∈ idle, isIdle segment = true) :
    idle.filter (!isIdle ·) = [] :=
  List.filter_eq_nil_iff.2 fun segment hs => by simp [h segment hs]

/-- A name joined to a directory has its steps behind those of the directory. -/
theorem steps_join (base : String) {name : String} (h : isAbsolute name = false) :
    steps (join base name) = steps base ++ steps name := by
  obtain ⟨front, idle, hjoin, hbase, hidle⟩ := exists_segments_join base h
  rw [steps, steps, steps, hjoin, hbase, List.filter_append, List.filter_append, filter_idle hidle,
    List.append_nil]

theorem getLast?_segments_join (base : String) {name : String} (h : isAbsolute name = false) :
    (segments (join base name)).getLast? = (segments name).getLast? := by
  obtain ⟨front, -, hjoin, -⟩ := exists_segments_join base h
  rw [hjoin, List.getLast?_append, List.getLast?_eq_some_getLast (segments_ne_nil name), Option.some_or]

end Path

namespace FileTree

variable {tree : FileTree} {place place' segments here : List String} {path : String}

theorem startOf_of_relative (h : Path.isAbsolute path = false) : startOf here path = here := by
  simp [startOf, h]

/-- A walk that never steps up goes down by its steps. -/
theorem eq_of_walk (h : segments.foldlM tree.step place = .ok place')
    (hup : Path.upSegment ∉ segments) : place' = place ++ segments.filter (!Path.isIdle ·) := by
  induction segments generalizing place with
  | nil =>
    obtain rfl := Except.ok.inj h
    simp
  | cons segment segments ih =>
    rw [List.mem_cons, not_or] at hup
    obtain ⟨next, hnext, hrest⟩ := bind_eq_ok_iff.1 h
    rw [ih hrest hup.2]
    obtain ⟨-, ⟨hidle, rfl⟩ | ⟨-, hsegment, -⟩ | ⟨hidle, -, -, rfl⟩⟩ := step_eq_ok_iff.1 hnext
    · rw [List.filter_cons_of_neg (by simp [hidle])]
    · exact absurd hsegment.symm hup.1
    · rw [List.filter_cons_of_pos (by simp [hidle]), List.append_assoc, List.singleton_append]

theorem not_mem_of_noUp (h : Path.stepsUp path = false) : Path.upSegment ∉ Path.segments path := by
  intro hm
  rw [Path.stepsUp, List.contains_iff_mem.2 hm] at h
  cases h

/-- A name that is joined to a path is seen from where the path is. -/
theorem startOf_join (here : List String) (base : String) {name : String}
    (h : Path.isAbsolute name = false) : startOf here (Path.join base name) = startOf here base := by
  rw [startOf, startOf, Path.isAbsolute_join base h]

/-- A path that never steps up leads to its steps from where it is seen. -/
theorem eq_steps_of_locate (h : tree.locate path here = .ok place) (hup : Path.stepsUp path = false) :
    place = startOf here path ++ Path.steps path := by
  obtain ⟨segments, hs, hwalk⟩ := bind_eq_ok_iff.1 h
  obtain ⟨rfl, -⟩ := takenSegments_eq_ok hs
  exact eq_of_walk hwalk (not_mem_of_noUp hup)

/-- A path that stays below the working place leads to its steps from there. -/
theorem eq_steps_of_staysBelow (h : tree.locate path here = .ok place) (hpath : Path.StaysBelow path) :
    place = here ++ Path.steps path := by
  rw [eq_steps_of_locate h hpath.noUp, startOf_of_relative hpath.relative]

/-- Idle segments are steps in place, from a directory. -/
theorem walk_idle (hd : tree.HasDir place) (h : ∀ segment ∈ segments, Path.isIdle segment = true) :
    segments.foldlM tree.step place = .ok place := by
  induction segments with
  | nil => rfl
  | cons segment segments ih =>
    obtain ⟨hidle, hmore⟩ := List.forall_mem_cons.1 h
    exact bind_eq_ok_iff.2 ⟨place, step_eq_ok_iff.2 ⟨hd, .inl ⟨hidle, rfl⟩⟩, ih hmore⟩

/-- The segments of a path lead to a place from where the path is seen. -/
def LeadsTo (tree : FileTree) (path : String) (here place : List String) : Prop :=
  (Path.segments path).foldlM tree.step (startOf here path) = .ok place

/-- A path below a directory leads below where the directory is. -/
theorem exists_of_locate_join {root file : String}
    (h : tree.locate (Path.join root file) here = .ok place) (hfile : Path.StaysBelow file) :
    ∃ rootPlace, tree.LeadsTo root here rootPlace ∧ place = rootPlace ++ Path.steps file := by
  obtain ⟨segments, hs, hwalk⟩ := bind_eq_ok_iff.1 h
  obtain ⟨rfl, -⟩ := takenSegments_eq_ok hs
  obtain ⟨front, idle, hjoin, hroot, hidle⟩ := Path.exists_segments_join root hfile.relative
  rw [startOf_join here root hfile.relative, hjoin, List.foldlM_append] at hwalk
  obtain ⟨rootPlace, hfront, hrest⟩ := bind_eq_ok_iff.1 hwalk
  have hdir : tree.HasDir rootPlace := by
    obtain ⟨segment, more, he⟩ := List.exists_cons_of_ne_nil (Path.segments_ne_nil file)
    rw [he] at hrest
    obtain ⟨next, hnext, -⟩ := bind_eq_ok_iff.1 hrest
    exact (step_eq_ok_iff.1 hnext).1
  refine ⟨rootPlace, ?_, eq_of_walk hrest (not_mem_of_noUp hfile.noUp)⟩
  rw [LeadsTo, hroot, List.foldlM_append]
  exact bind_eq_ok_iff.2 ⟨rootPlace, hfront, walk_idle hdir hidle⟩

end FileTree

end ApiSurface
