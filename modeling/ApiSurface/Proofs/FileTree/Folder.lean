import ApiSurface.Proofs.FileTree.Frame

namespace ApiSurface

namespace Path

variable {path name : String} {front : List String}

section Segments

variable {s t : List Char} {c : Char} {segment : String}

theorem exists_mem_segmentsOf_iff :
    (c ∈ (segmentsOf s).1 ∨ ∃ t ∈ (segmentsOf s).2, c ∈ t) ↔ c ∈ s ∧ c ≠ '/' := by
  induction s with
  | nil => simp [segmentsOf]
  | cons d s ih =>
    rw [segmentsOf]
    by_cases hd : d = '/'
    · subst hd
      simp only [if_pos, List.not_mem_nil, List.mem_cons, exists_eq_or_imp, false_or, ih]
      grind
    · simp only [if_neg hd, List.mem_cons, or_assoc, ih]
      grind

/-- The characters of the segments are those of the path without the slashes. -/
theorem exists_mem_segments_iff :
    (∃ segment ∈ segments path, c ∈ segment.toList) ↔ c ∈ path.toList ∧ c ≠ '/' := by
  rw [← exists_mem_segmentsOf_iff, segments]
  simp only [List.mem_map, List.mem_cons]
  constructor
  · rintro ⟨-, ⟨s, rfl | hs, rfl⟩, hc⟩
    · exact .inl (by simpa using hc)
    · exact .inr ⟨s, hs, by simpa using hc⟩
  · rintro (hc | ⟨s, hs, hc⟩)
    · exact ⟨_, ⟨_, .inl rfl, rfl⟩, by simpa using hc⟩
    · exact ⟨_, ⟨s, .inr hs, rfl⟩, by simpa using hc⟩

theorem not_mem_slash (h : segment ∈ segments path) : '/' ∉ segment.toList :=
  fun hc => (exists_mem_segments_iff.1 ⟨segment, h, hc⟩).2 rfl

theorem hasNul_eq_false_iff :
    hasNul path = false ↔ ∀ segment ∈ segments path, '\x00' ∉ segment.toList := by
  have hiff := @exists_mem_segments_iff path '\x00'
  rw [hasNul, ← Bool.not_eq_true, List.contains_iff_mem]
  grind

theorem head?_segments_iff :
    (segments path).head? = some "" ↔ path = "" ∨ isAbsolute path = true := by
  rw [segments, isAbsolute, ← String.toList_eq_nil_iff]
  cases path.toList with
  | nil => simp [segmentsOf]
  | cons c s =>
    by_cases hc : c = '/'
    · simp [segmentsOf, hc]
    · simp [segmentsOf, hc]

theorem getLast?_segments_iff :
    (segments path).getLast? = some "" ↔ path = "" ∨ endsInSlash path = true := by
  refine ⟨FileTree.getLast?_segments, ?_⟩
  rintro (rfl | hslash)
  · rfl
  · obtain ⟨s, hs⟩ : ∃ s, path.toList = s ++ ['/'] :=
      List.getLast?_eq_some_iff.1 (beq_iff_eq.1 hslash)
    have hsegments : segments path =
        ((segmentsOf s).1 :: (segmentsOf s).2 ++ [[]]).map String.ofList := by
      rw [segments, hs, segmentsOf_slash]
      rfl
    rw [hsegments, List.map_append]
    exact List.getLast?_concat

/-- A path that is not empty is absolute if its first segment is empty. -/
theorem isAbsolute_iff (h : path ≠ "") : isAbsolute path = true ↔ (segments path).head? = some "" := by
  rw [head?_segments_iff, or_iff_right h]

/-- The segments that a tree is walked by are those of a path within the limits. -/
theorem takenSegments_eq_ok_iff {taken : List String} :
    FileTree.takenSegments path = .ok taken ↔ taken = segments path ∧
      path ≠ "" ∧ hasNul path = false ∧ isUsable path = true := by
  rw [FileTree.takenSegments]
  split
  · simp_all
  · split
    · simp_all
    · split <;> simp_all [@eq_comm _ _ taken]

theorem not_idle_upSegment : ¬ isIdle upSegment = true := by decide

/-- A segment that names no step is a short text without a zero byte. -/
theorem short_of_isIdle (h : isIdle segment = true) :
    segment.utf8ByteSize ≤ maxSegmentBytes ∧ '\x00' ∉ segment.toList := by
  obtain rfl | rfl : segment = "" ∨ segment = "." := by simpa [isIdle] using h
  · decide
  · decide

end Segments

section Folder

/-- Leaving out the idle segments at the end keeps the first one. -/
theorem exists_dropIdle {names : List String} (h : names ≠ []) :
    ∃ idle, names = idle ++ dropIdle names ∧ dropIdle names ≠ [] ∧
      ∀ segment ∈ idle, isIdle segment = true := by
  fun_induction dropIdle names with
  | case1 => exact absurd rfl h
  | case2 first => exact ⟨[], rfl, List.cons_ne_nil _ _, by simp⟩
  | case3 last more hmore hidle ih =>
    obtain ⟨idle, hmore, hne, hall⟩ := ih hmore
    refine ⟨last :: idle, ?_, hne, List.forall_mem_cons.2 ⟨hidle, hall⟩⟩
    rw [List.cons_append, ← hmore]
  | case4 last more hmore hidle => exact ⟨[], rfl, List.cons_ne_nil _ _, by simp⟩

theorem backwards_eq (h : segments path = front ++ [name]) (hname : isIdle name = false) :
    backwards path = name :: front.reverse := by
  rw [backwards, h, List.reverse_concat]
  cases front.reverse with
  | nil => rfl
  | cons n names =>
    rw [dropIdle, if_neg (by simp [hname])]
    exact List.cons_ne_nil n names

/-- A path whose last segment is a name ends in that name. -/
theorem fileName?_eq (h : segments path = front ++ [name]) (hname : isIdle name = false)
    (hup : name ≠ upSegment) : fileName? path = some name := by
  rw [fileName?, backwards_eq h hname]
  simp [hname, hup]

theorem parent?_eq (h : segments path = front ++ [name]) (hname : isIdle name = false)
    (hfront : front ≠ []) : parent? path = some (if dropIdle front.reverse = [""] then "/"
      else "/".intercalate (dropIdle front.reverse).reverse) := by
  rw [parent?, backwards_eq h hname]
  cases hr : front.reverse with
  | nil => exact absurd (List.reverse_eq_nil_iff.1 hr) hfront
  | cons last more =>
    dsimp only
    split
    · rename_i hroot
      rw [if_pos hroot]
    · rename_i hroot
      rw [if_neg hroot]

/-- The directory of a path is the place where it is seen from for a lone name, the root for a name
in the root, and else what the segments in front of the name make, without the idle ones at their end. -/
theorem folderOf_cases (h : segments path = front ++ [name]) (hname : isIdle name = false) :
    front = [] ∧ FileTree.folderOf path = "." ∨ ∃ idle, (∀ segment ∈ idle, isIdle segment = true) ∧
      (front = "" :: idle ∧ FileTree.folderOf path = "/" ∨
        front = segments (FileTree.folderOf path) ++ idle ∧ FileTree.folderOf path ≠ "") := by
  by_cases hlone : front = []
  · have hne : name ≠ "" := (isIdle_eq_false_iff.1 hname).1
    exact .inl ⟨hlone, by simp [FileTree.folderOf, parent?, backwards_eq h hname, hlone, hne]⟩
  obtain ⟨idle, hidle, hkept, hall⟩ := exists_dropIdle (mt List.reverse_eq_nil_iff.1 hlone)
  have hfront : front = (dropIdle front.reverse).reverse ++ idle.reverse := by
    rw [← List.reverse_append, ← hidle, List.reverse_reverse]
  refine .inr ⟨idle.reverse, fun segment hs => hall segment (List.mem_reverse.1 hs), ?_⟩
  by_cases hroot : dropIdle front.reverse = [""]
  · rw [hroot] at hfront
    refine .inl ⟨hfront, ?_⟩
    rw [FileTree.folderOf, parent?_eq h hname hlone, if_pos hroot]
    exact if_neg (by decide)
  · have hsegments : segments ("/".intercalate (dropIdle front.reverse).reverse) =
        (dropIdle front.reverse).reverse := by
      refine segments_intercalate (mt List.reverse_eq_nil_iff.1 hkept) fun segment hs => ?_
      have hmem : segment ∈ segments path := by
        rw [h, hfront]
        exact List.mem_append_left _ (List.mem_append_left _ hs)
      exact not_mem_slash hmem
    have hne : "/".intercalate (dropIdle front.reverse).reverse ≠ "" := by
      intro hempty
      rw [hempty] at hsegments
      exact hroot (List.reverse_eq_iff.1 hsegments.symm)
    have hfolder : FileTree.folderOf path = "/".intercalate (dropIdle front.reverse).reverse := by
      rw [FileTree.folderOf, parent?_eq h hname hlone, if_neg hroot]
      exact if_neg hne
    exact .inr ⟨by rw [hfolder, hsegments, ← hfront], hfolder ▸ hne⟩

/-- The directory of a path is seen from where the path is, and has the steps in front of the file name,
by segments of the path or idle ones. -/
theorem steps_folderOf (h : segments path = front ++ [name]) (hname : isIdle name = false) :
    steps (FileTree.folderOf path) = front.filter (!isIdle ·) ∧
      FileTree.folderOf path ≠ "" ∧ isAbsolute (FileTree.folderOf path) = isAbsolute path ∧
      ∀ segment ∈ segments (FileTree.folderOf path), segment ∈ front ∨ isIdle segment = true := by
  have hpath : path ≠ "" := by
    rintro rfl
    have hempty : segments "" = [] ++ [""] := rfl
    have hlast := (List.append_inj' (h.symm.trans hempty) rfl).2
    exact (isIdle_eq_false_iff.1 hname).1 (List.cons.inj hlast).1
  have hhead {folder : String} (hfolder : folder ≠ "")
      (hsame : (segments folder).head? = some "" ↔ (front ++ [name]).head? = some "") :
      isAbsolute folder = isAbsolute path := by
    rw [Bool.eq_iff_iff, isAbsolute_iff hfolder, isAbsolute_iff hpath, h, hsame]
  obtain ⟨rfl, hfolder⟩ | ⟨idle, hidle, ⟨rfl, hfolder⟩ | ⟨hfront, hfolder⟩⟩ := folderOf_cases h hname
  · have hdot : segments "." = ["."] := rfl
    rw [hfolder, steps, hdot]
    refine ⟨rfl, by decide, hhead (by decide) ?_, by simp [isIdle]⟩
    rw [hdot]
    simp [(isIdle_eq_false_iff.1 hname).1]
  · have hroot : segments "/" = ["", ""] := rfl
    rw [hfolder, steps, hroot]
    refine ⟨?_, by decide, hhead (by decide) (by simp [hroot]), by simp [isIdle]⟩
    rw [List.filter_cons_of_neg (by decide), List.filter_cons_of_neg (by decide),
      List.filter_cons_of_neg (by decide), filter_idle hidle, List.filter_nil]
  · refine ⟨?_, hfolder, hhead hfolder ?_, fun segment hs => ?_⟩
    · rw [hfront, List.filter_append, filter_idle hidle, List.append_nil, steps]
    · obtain ⟨first, more, he⟩ := List.exists_cons_of_ne_nil (segments_ne_nil (FileTree.folderOf path))
      rw [hfront, he]
      rfl
    · exact .inl (hfront ▸ List.mem_append_left idle hs)

/-- The path has no zero byte and never steps up. -/
structure IsDownward (path : String) : Prop where
  noNul : hasNul path = false
  noUp : stepsUp path = false

/-- Where a path never steps up, its directory does not. -/
theorem IsDownward.folderOf (hpath : IsDownward path) (h : segments path = front ++ [name])
    (hname : isIdle name = false) : IsDownward (FileTree.folderOf path) := by
  obtain ⟨-, -, -, hmem⟩ := steps_folderOf h hname
  have hpart {segment} (hs : segment ∈ segments (FileTree.folderOf path)) :
      segment ∈ segments path ∨ isIdle segment = true :=
    (hmem segment hs).imp_left fun hs => h ▸ List.mem_append_left _ hs
  refine ⟨hasNul_eq_false_iff.2 fun segment hs => ?_, ?_⟩
  · obtain hs | hidle := hpart hs
    · exact hasNul_eq_false_iff.1 hpath.noNul segment hs
    · exact (short_of_isIdle hidle).2
  · rw [stepsUp, ← Bool.not_eq_true, List.contains_iff_mem]
    exact fun hs => (hpart hs).elim (FileTree.not_mem_of_noUp hpath.noUp) not_idle_upSegment

end Folder

end Path

namespace FileTree

variable {tree : FileTree} {place more folder segments front here : List String}
  {path name : String} {data : FileData}

section Walk

theorem pathExists_iff :
    tree.pathExists path here = true ↔ ∃ place node, tree.locate path here = .ok place ∧
      tree.get? place = some node := by
  rw [pathExists, find?]
  cases tree.locate path here with
  | error e => simp
  | ok place => simp [Option.isSome_iff_exists]

/-- A walk that never steps up goes through the directories that are there. -/
theorem walk_of_hasDir (hup : Path.upSegment ∉ segments)
    (h : tree.HasDir (place ++ segments.filter (!Path.isIdle ·))) :
    segments.foldlM tree.step place = .ok (place ++ segments.filter (!Path.isIdle ·)) := by
  induction segments generalizing place with
  | nil => simp only [List.filter_nil, List.append_nil]; rfl
  | cons segment segments ih =>
    rw [List.mem_cons, not_or] at hup
    by_cases hidle : Path.isIdle segment = true
    · rw [List.filter_cons_of_neg (by simp [hidle])] at h ⊢
      exact bind_eq_ok_iff.2 ⟨place, step_eq_ok_iff.2 ⟨h.of_append, .inl ⟨hidle, rfl⟩⟩, ih hup.2 h⟩
    · rw [List.filter_cons_of_pos (by simp [hidle]), List.append_cons] at h ⊢
      obtain ⟨entries, he⟩ := h.of_append
      have hstep := step_entry (HasDir.of_append ⟨entries, he⟩) (by simpa using hidle)
        (Ne.symm hup.1) he
      exact bind_eq_ok_iff.2 ⟨_, hstep, ih hup.2 h⟩

/-- A path to the entry of a directory leads there if a directory is there. -/
theorem locate_of_hasDir (hs : takenSegments path = .ok (front ++ [name]))
    (hup : Path.upSegment ∉ front) (hname : Path.isIdle name = false ∧ name ≠ Path.upSegment)
    (hd : tree.HasDir (startOf here path ++ front.filter (!Path.isIdle ·) ++ [name])) :
    tree.locate path here = .ok (startOf here path ++ front.filter (!Path.isIdle ·) ++ [name]) := by
  have hfilter : startOf here path ++ (front ++ [name]).filter (!Path.isIdle ·) =
      startOf here path ++ front.filter (!Path.isIdle ·) ++ [name] := by
    rw [List.filter_append, List.filter_cons_of_pos (by simp [hname.1]), List.filter_nil,
      List.append_assoc]
  rw [← hfilter] at hd ⊢
  have hup' : Path.upSegment ∉ front ++ [name] := by
    rw [List.mem_append, List.mem_singleton, not_or]
    exact ⟨hup, hname.2.symm⟩
  exact bind_eq_ok_iff.2 ⟨_, hs, walk_of_hasDir hup' hd⟩

/-- Where a file lies on the way, some of the segments lead to it. -/
theorem exists_walk_of_hasFile (hup : Path.upSegment ∉ segments)
    (hmore : more <+: segments.filter (!Path.isIdle ·)) (h : tree.HasFile (place ++ more) data) :
    ∃ front rest, segments = front ++ rest ∧
      front.foldlM tree.step place = .ok (place ++ more) := by
  induction segments generalizing place more with
  | nil =>
    obtain rfl := List.prefix_nil.1 hmore
    exact ⟨[], [], rfl, by simp only [List.append_nil]; rfl⟩
  | cons segment segments ih =>
    rw [List.mem_cons, not_or] at hup
    cases more with
    | nil => exact ⟨[], segment :: segments, rfl, by simp only [List.append_nil]; rfl⟩
    | cons n more =>
      by_cases hidle : Path.isIdle segment = true
      · rw [List.filter_cons_of_neg (by simp [hidle])] at hmore
        obtain ⟨front, rest, rfl, hwalk⟩ := ih hup.2 hmore h
        exact ⟨segment :: front, rest, rfl, bind_eq_ok_iff.2
          ⟨place, step_eq_ok_iff.2 ⟨h.hasDir, .inl ⟨hidle, rfl⟩⟩, hwalk⟩⟩
      · rw [List.filter_cons_of_pos (by simp [hidle])] at hmore
        obtain ⟨rfl, htail⟩ := List.cons_prefix_cons.1 hmore
        obtain ⟨node, hnode⟩ : ∃ node, tree.get? (place ++ [n]) = some node := by
          rw [List.append_cons, HasFile, get?_append, Option.bind_eq_some_iff] at h
          obtain ⟨node, hnode, -⟩ := h
          exact ⟨node, hnode⟩
        have hstep := step_entry h.hasDir (by simpa using hidle) (Ne.symm hup.1) hnode
        rw [List.append_cons] at h ⊢
        obtain ⟨front, rest, rfl, hwalk⟩ := ih hup.2 htail h
        exact ⟨n :: front, rest, rfl, bind_eq_ok_iff.2 ⟨_, hstep, hwalk⟩⟩

/-- A step to a name that a directory does not hold finds nothing. -/
theorem step_of_none (hf : tree.HasDir folder) (hidle : Path.isIdle name = false)
    (hup : name ≠ Path.upSegment) (hshort : name.utf8ByteSize ≤ Path.maxSegmentBytes)
    (hn : tree.get? (folder ++ [name]) = none) : tree.step folder name = .error .notFound := by
  obtain ⟨entries, he⟩ := hf
  have hl : entries.lookup name = none := by
    rw [get?_append, he, Option.bind_some, get?, child?] at hn
    cases hl : entries.lookup name with
    | none => rfl
    | some child => simp [hl, get?] at hn
  rw [step, he]
  simp [hidle, hup, hl, Nat.not_lt.2 hshort]

/-- A directory that is made is the only new one. -/
theorem hasDir_of_made (hd : tree.HasDir folder)
    (h : (tree.put (folder ++ [name]) (.dir [])).HasDir place) :
    tree.HasDir place ∨ place = folder ++ [name] := by
  obtain ⟨more, rfl, hmore⟩ | ⟨-, hplace⟩ := (hasDir_put hd).1 h
  · cases more with
    | nil => exact .inr rfl
    | cons n more =>
      obtain ⟨child, hc, -⟩ := hasDir_cons_iff.1 hmore
      cases hc
  · exact .inl hplace

/-- Directories can be made along segments that meet no file, and no other ones are made. -/
theorem makeDirs_ok (hd : tree.HasDir place) (hup : Path.upSegment ∉ segments)
    (hshort : ∀ segment ∈ segments, segment.utf8ByteSize ≤ Path.maxSegmentBytes)
    (hfree : ∀ more data, more <+: segments.filter (!Path.isIdle ·) →
      ¬ tree.HasFile (place ++ more) data) :
    ∃ made, tree.makeDirs place segments = (made, .ok (place ++ segments.filter (!Path.isIdle ·))) ∧
      made.HasDir (place ++ segments.filter (!Path.isIdle ·)) ∧
      ∀ other, made.HasDir other →
        tree.HasDir other ∨ other <+: place ++ segments.filter (!Path.isIdle ·) := by
  -- From the first missing directory on, each is made in the one made before it.
  induction segments generalizing tree place with
  | nil =>
    rw [List.filter_nil, List.append_nil, makeDirs, if_pos (any_isDir_iff.2 hd)]
    exact ⟨tree, rfl, hd, fun other => .inl⟩
  | cons segment segments ih =>
    rw [List.mem_cons, not_or] at hup
    obtain ⟨hsegment, hshort⟩ := List.forall_mem_cons.1 hshort
    by_cases hidle : Path.isIdle segment = true
    · rw [List.filter_cons_of_neg (by simp [hidle])] at hfree ⊢
      rw [makeDirs, step_eq_ok_iff.2 ⟨hd, .inl ⟨hidle, rfl⟩⟩]
      exact ih hd hup.2 hshort hfree
    · rw [List.filter_cons_of_pos (by simp [hidle])] at hfree ⊢
      rw [Bool.not_eq_true] at hidle
      rw [List.append_cons]
      have hbelow {more data} (hmore : more <+: segments.filter (!Path.isIdle ·)) :
          ¬ tree.HasFile (place ++ [segment] ++ more) data := by
        rw [← List.append_cons]
        exact hfree _ data (List.cons_prefix_cons.2 ⟨rfl, hmore⟩)
      cases hnode : tree.get? (place ++ [segment]) with
      | some node =>
        rw [makeDirs, step_entry hd hidle (Ne.symm hup.1) hnode]
        refine ih ?_ hup.2 hshort fun more data => hbelow
        cases node with
        | file data =>
          have hfile : ¬ tree.HasFile (place ++ [segment] ++ []) data := hbelow List.nil_prefix
          rw [List.append_nil] at hfile
          exact absurd hnode hfile
        | dir entries => exact ⟨entries, hnode⟩
      | none =>
        have hmade : Frame (fun _ => False) (fun _ => False) tree
            (tree.put (place ++ [segment]) (.dir [])) := frame_makeDir hd hnode
        have hdir : (tree.put (place ++ [segment]) (.dir [])).HasDir (place ++ [segment]) :=
          ⟨[], get?_put_self hd segment _⟩
        rw [makeDirs, step_of_none hd hidle (Ne.symm hup.1) hsegment hnode]
        dsimp only
        rw [if_pos ⟨rfl, Ne.symm hup.1, any_isDir_iff.2 hd⟩]
        obtain ⟨made, hmake, hreached, hothers⟩ := ih hdir hup.2 hshort fun more data hmore hfile =>
          (hmade.new _ _ hfile).elim (hbelow hmore) id
        refine ⟨made, hmake, hreached, fun other hother => ?_⟩
        obtain hother | hother := hothers other hother
        · obtain hother | rfl := hasDir_of_made hd hother
          · exact .inl hother
          · exact .inr (List.prefix_append _ _)
        · exact .inr hother

/-- Nothing is made from a place on where no directory is. -/
theorem makeDirs_of_not_hasDir (h : ¬ tree.HasDir place) (segments : List String) :
    (tree.makeDirs place segments).1 = tree := by
  cases segments with
  | nil => rfl
  | cons segment segments =>
    rw [makeDirs]
    cases hs : tree.step place segment with
    | ok next => exact absurd (step_eq_ok_iff.1 hs).1 h
    | error e =>
      dsimp only
      rw [if_neg fun hmake => h (any_isDir_iff.1 hmake.2.2)]

/-- The directories of a path are made where no file is on the way, and no other ones. -/
theorem createDirs_ok (hd : tree.HasDir (startOf here path)) (hs : takenSegments path = .ok segments)
    (hup : Path.upSegment ∉ segments)
    (hshort : ∀ segment ∈ segments, segment.utf8ByteSize ≤ Path.maxSegmentBytes)
    (hfree : ∀ more data, more <+: segments.filter (!Path.isIdle ·) →
      ¬ tree.HasFile (startOf here path ++ more) data) :
    ∃ made, tree.createDirs path here = (made, .ok ()) ∧
      made.HasDir (startOf here path ++ segments.filter (!Path.isIdle ·)) ∧
      ∀ place, made.HasDir place →
        tree.HasDir place ∨ place <+: startOf here path ++ segments.filter (!Path.isIdle ·) := by
  obtain ⟨made, hmake, hmade⟩ := makeDirs_ok hd hup hshort hfree
  refine ⟨made, ?_, hmade⟩
  rw [createDirs, hs]
  dsimp only
  rw [hmake]
  rfl

end Walk

theorem startOf_folderOf (h : Path.segments path = front ++ [name]) (hname : Path.isIdle name = false)
    (here : List String) : startOf here (folderOf path) = startOf here path := by
  rw [startOf, startOf, (Path.steps_folderOf h hname).2.2.1]

theorem withFolder_of_not_hasDir (h : ¬ tree.HasDir (startOf here (folderOf path))) :
    tree.withFolder path here = tree := by
  unfold withFolder createDirs
  split
  · rfl
  · split
    · exact makeDirs_of_not_hasDir h _
    · rfl

/-- The directory of a path that never steps up is there when its file is written, unless a file is on
the way; and the directories on the way are the only new ones. -/
theorem writeAtomic_eq_replaceFile (hpath : Path.IsDownward path)
    (h : Path.segments path = front ++ [name]) (hname : Path.isIdle name = false)
    (hshort : ∀ segment ∈ front, segment.utf8ByteSize ≤ Path.maxSegmentBytes)
    (husable : Path.isUsable (folderOf path) = true) (hd : tree.HasDir (startOf here path))
    (hfree : ∀ more data, more <+: front.filter (!Path.isIdle ·) →
      ¬ tree.HasFile (startOf here path ++ more) data) (contents stamp : String) :
    tree.writeAtomic path contents stamp here =
        (tree.withFolder path here).replaceFile (folderOf path) path contents stamp here ∧
      (tree.withFolder path here).HasDir (startOf here path ++ front.filter (!Path.isIdle ·)) ∧
      ∀ place, (tree.withFolder path here).HasDir place →
        tree.HasDir place ∨ place <+: startOf here path ++ front.filter (!Path.isIdle ·) := by
  obtain ⟨hsteps, hne, -, hmem⟩ := Path.steps_folderOf h hname
  rw [Path.steps] at hsteps
  have hfolder := hpath.folderOf h hname
  have hup := not_mem_of_noUp hfolder.noUp
  have htaken := Path.takenSegments_eq_ok_iff.2 ⟨rfl, hne, hfolder.noNul, husable⟩
  rw [← hsteps, ← startOf_folderOf h hname here] at hfree ⊢
  rw [← startOf_folderOf h hname here] at hd
  unfold withFolder writeAtomic
  dsimp only
  split
  · rename_i hthere
    refine ⟨rfl, ?_, fun place => .inl⟩
    obtain ⟨place, node, hplace, hnode⟩ := pathExists_iff.1 hthere
    rw [eq_steps_of_locate hplace hfolder.noUp, Path.steps] at hnode
    cases node with
    | file data => exact absurd hnode (hfree _ data List.prefix_rfl)
    | dir entries => exact ⟨entries, hnode⟩
  · obtain ⟨made, hmake, hmade⟩ := createDirs_ok hd htaken hup (fun segment hs =>
      (hmem segment hs).elim (hshort segment) fun hidle => (Path.short_of_isIdle hidle).1) hfree
    rw [hmake]
    exact ⟨rfl, hmade⟩

end FileTree

end ApiSurface
