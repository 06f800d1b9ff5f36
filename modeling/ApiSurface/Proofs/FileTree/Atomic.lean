import ApiSurface.Proofs.FileTree.Folder

namespace ApiSurface.FileTree

variable {tree tree' made after : FileTree} {place folder target front here : List String}
  {path name written entry stamp contents folderPath : String} {data : FileData}
  {r : Except Fault Unit}

section Lookup

/-- Segments that lead somewhere in two trees lead to one place. -/
theorem eq_of_walks {segments place' : List String} (h : segments.foldlM tree.step folder = .ok place)
    (h' : segments.foldlM tree'.step folder = .ok place') : place = place' := by
  induction segments generalizing folder with
  | nil => exact Except.ok.inj (h.symm.trans h')
  | cons segment segments ih =>
    obtain ⟨next, hnext, h⟩ := bind_eq_ok_iff.1 h
    obtain ⟨next', hnext', h'⟩ := bind_eq_ok_iff.1 h'
    have hsame : next = next' := by
      obtain ⟨-, hto⟩ := step_eq_ok_iff.1 hnext
      obtain ⟨-, hto'⟩ := step_eq_ok_iff.1 hnext'
      grind
    exact ih h (hsame ▸ h')

theorem HasFile.not_hasDir (h : tree.HasFile place data) : ¬ tree.HasDir place := by
  rintro ⟨entries, he⟩
  rw [h] at he
  cases he

/-- A place that a step leads to is there. -/
theorem isSome_of_step (h : tree.step place name = .ok target) : (tree.get? target).isSome := by
  obtain ⟨hdir, ⟨-, rfl⟩ | ⟨-, -, rfl⟩ | ⟨-, -, hsome, rfl⟩⟩ := step_eq_ok_iff.1 h
  · obtain ⟨entries, he⟩ := hdir
    rw [he, Option.isSome_some]
  · obtain ⟨more, hmore⟩ := place.dropLast_prefix
    rw [← hmore] at hdir
    obtain ⟨entries, he⟩ := hdir.of_append
    rw [he, Option.isSome_some]
  · exact hsome

/-- A walk from a directory leads to a directory or to a file. -/
theorem exists_hasFile_of_walk (hd : tree.HasDir folder) (h : front.foldlM tree.step folder = .ok place)
    (hplace : ¬ tree.HasDir place) : ∃ data, tree.HasFile place data := by
  have hsome : (tree.get? place).isSome := by
    obtain rfl | ⟨before, last, rfl⟩ := front.eq_nil_or_concat
    · obtain rfl := Except.ok.inj h
      exact absurd hd hplace
    · rw [List.concat_eq_append, List.foldlM_append] at h
      obtain ⟨next, -, hlast⟩ := bind_eq_ok_iff.1 h
      obtain ⟨reached, hstep, hlast⟩ := bind_eq_ok_iff.1 hlast
      obtain rfl := Except.ok.inj hlast
      exact isSome_of_step hstep
  obtain ⟨node, hnode⟩ := Option.isSome_iff_exists.1 hsome
  cases node with
  | file data => exact ⟨data, hnode⟩
  | dir entries => exact absurd ⟨entries, hnode⟩ hplace

theorem read_eq_ok_iff :
    tree.read path here = .ok data ↔
      ∃ place, tree.locate path here = .ok place ∧ tree.HasFile place data := by
  rw [read, bind_eq_ok_iff]
  refine exists_congr fun place => and_congr_right fun _ => ?_
  rw [HasFile]
  cases tree.get? place with
  | none => exact iff_of_false (fun h => by cases h) (fun h => by cases h)
  | some node =>
    cases node with
    | file d => exact ⟨fun h => by rw [Except.ok.inj h], fun h => by cases h; rfl⟩
    | dir entries => exact iff_of_false (fun h => by cases h) (fun h => by cases h)

theorem isDirAt_iff :
    tree.isDirAt path here = true ↔
      ∃ place, tree.locate path here = .ok place ∧ tree.HasDir place := by
  rw [isDirAt, find?]
  cases tree.locate path here with
  | error e => simp
  | ok place => simp [any_isDir_iff]

/-- Where the entry is missing that a path names, nothing is found. -/
theorem Names.pathExists_eq_false_iff (h : tree.Names path here folder name) :
    tree.pathExists path here = false ↔ ∀ data, ¬ tree.HasFile (folder ++ [name]) data := by
  rw [← Bool.not_eq_true, pathExists_iff]
  constructor
  · exact fun hnone data hfile => hnone ⟨_, _, h.locate (fun _ hd => hd) hfile, hfile⟩
  · rintro hnone ⟨place, node, hplace, hnode⟩
    obtain ⟨before, hs, hwalk⟩ := h.walk
    obtain ⟨inside, hinside, hto⟩ := bind_eq_ok_iff.1 hplace
    obtain rfl := Except.ok.inj (hs.symm.trans hinside)
    rw [List.foldlM_append, hwalk] at hto
    obtain ⟨next, hnext, hlast⟩ := bind_eq_ok_iff.1 hto
    obtain rfl := Except.ok.inj hnext
    obtain ⟨last, hstep, hlast⟩ := bind_eq_ok_iff.1 hlast
    obtain rfl := Except.ok.inj hlast
    obtain ⟨-, ⟨hidle, -⟩ | ⟨-, hup, -⟩ | ⟨-, -, -, rfl⟩⟩ := step_eq_ok_iff.1 hstep
    · rw [h.segment.1] at hidle
      cases hidle
    · exact h.segment.2 hup
    · cases node with
      | file data => exact hnone data hnode
      | dir entries => exact h.free ⟨entries, hnode⟩

end Lookup

section Temporary

/-- The stamp of a writer is part of a name. -/
def IsStamp (stamp : String) : Prop := ∀ c ∈ stamp.toList, c ≠ '/' ∧ c ≠ '\x00'

/-- The path of the file through which a writer with this stamp replaces the file of a path. -/
def temporaryPath? (path stamp : String) : Option String :=
  (Path.fileName? path).map fun name => Path.join (folderOf path) (temporaryName stamp name)

/-- Nothing has the name of the temporary file when it is written. -/
def TemporaryIsUnused (tree : FileTree) (path stamp : String) (here : List String) : Prop :=
  ∀ temporary, temporaryPath? path stamp = some temporary →
    (tree.withFolder path here).pathExists temporary here = false

theorem toList_temporaryName (stamp name : String) : (temporaryName stamp name).toList =
    '.' :: (name.toList ++ '.' :: (stamp.toList ++ ['.', 't', 'm', 'p'])) := by
  simp [temporaryName]

theorem temporaryName_ne (stamp name : String) : temporaryName stamp name ≠ name := by
  intro h
  have hlength := congrArg List.length (congrArg String.toList h)
  rw [toList_temporaryName] at hlength
  simp at hlength
  omega

theorem not_mem_temporaryName {c : Char} (hstamp : c ∉ stamp.toList) (hname : c ∉ name.toList)
    (hc : c ∉ ['.', 't', 'm', 'p']) : c ∉ (temporaryName stamp name).toList := by
  rw [toList_temporaryName]
  simp only [List.mem_cons, List.mem_append, not_or] at hc ⊢
  exact ⟨hc.1, hname, hc.1, hstamp, hc⟩

theorem isSegment_temporaryName (stamp name : String) :
    Path.isIdle (temporaryName stamp name) = false ∧ temporaryName stamp name ≠ Path.upSegment := by
  have hne {other : String} (h : other.toList.length < 6) : temporaryName stamp name ≠ other := by
    rintro rfl
    rw [toList_temporaryName] at h
    simp at h
    omega
  exact ⟨Path.isIdle_eq_false_iff.2 ⟨hne (by decide), hne (by decide)⟩, hne (by decide)⟩

/-- A path that names an entry ends in its name. -/
theorem Names.fileName?_eq (h : tree.Names path here folder name) : Path.fileName? path = some name := by
  obtain ⟨before, hs, -⟩ := h.walk
  exact Path.fileName?_eq (takenSegments_eq_ok hs).1.symm h.segment.1 h.segment.2

theorem Names.not_mem_slash (h : tree.Names path here folder name) : '/' ∉ name.toList :=
  Path.not_mem_slash (List.mem_of_getLast? h.getLast?_segments)

/-- The entry of the temporary file has its name. -/
theorem Names.eq_temporaryName
    (h : tree.Names (Path.join folderPath (temporaryName stamp written)) here folder name)
    (hstamp : '/' ∉ stamp.toList) (hwritten : '/' ∉ written.toList) :
    name = temporaryName stamp written := by
  have hlast := h.getLast?_segments
  rw [Path.getLast?_segments_join folderPath (isAbsolute_temporaryName stamp written),
    Path.segments_of_not_mem (not_mem_temporaryName hstamp hwritten (by decide))] at hlast
  exact (Option.some.inj hlast).symm

/-- A file that is written and taken away again leaves its path naming an entry that is missing. -/
theorem Names.put_remove (h : tree.Names path here folder name) (data : FileData) :
    ((tree.put (folder ++ [name]) (.file data)).remove (folder ++ [name])).Names path here folder name ∧
      ∀ d, ¬ ((tree.put (folder ++ [name]) (.file data)).remove (folder ++ [name])).HasFile
        (folder ++ [name]) d := by
  have hthere := get?_put_self h.parent name (.file data)
  refine ⟨h.of_hasDir_iff fun place => h.hasDir_put_remove_iff data, fun d hfile => ?_⟩
  exact ((hasFile_remove_iff hthere (by simp)).1 hfile).1 rfl

/-- However a file is replaced, the temporary one is gone afterwards. -/
theorem Replaces.pathExists_temporary (h : Replaces made folderPath path contents stamp here after r)
    (hstamp : '/' ∉ stamp.toList) (hwritten : Path.fileName? path = some written)
    (hunused : made.pathExists (Path.join folderPath (temporaryName stamp written)) here = false) :
    after.pathExists (Path.join folderPath (temporaryName stamp written)) here = false := by
  cases h with
  | refused fault => exact hunused
  | undone fault hname temporary =>
    obtain rfl := Option.some.inj (hname.symm.trans hwritten)
    obtain ⟨hnames, hgone⟩ := temporary.put_remove (.ofText contents)
    exact hnames.pathExists_eq_false_iff.2 hgone
  | done hname temporary named =>
    rename_i name entry folder target
    obtain rfl := Option.some.inj (hname.symm.trans hwritten)
    obtain ⟨hnames, hgone⟩ := temporary.put_remove (.ofText contents)
    -- The target has another name than the temporary file next to it.
    have hne : name ≠ entry := by
      have hentry := Option.some.inj (hname.symm.trans named.fileName?_eq)
      rw [temporary.eq_temporaryName hstamp (hentry ▸ named.not_mem_slash), ← hentry]
      exact temporaryName_ne _ _
    refine (Names.pathExists_eq_false_iff (hnames.of_hasDir_iff fun place =>
      hasDir_put_iff named.parent named.free)).2 fun d hfile => ?_
    obtain ⟨more, hmore, hnode⟩ | ⟨-, hfile⟩ := (hasFile_put_iff named.parent).1 hfile
    · obtain ⟨rfl, -⟩ := hasFile_file_iff.1 hnode
      exact hne (List.append_inj' hmore rfl |>.2 |> List.cons.inj |>.1)
    · exact hgone d hfile

end Temporary

section Keeping

variable {may lost : List String → Prop}

theorem Frame.of_not_lost (h : Frame may lost tree after)
    (hl : ∀ place data, lost place → ¬ tree.HasFile place data) :
    Frame may (fun _ => False) tree after where
  dirs := h.dirs
  new := h.new
  kept place data hf := (h.kept place data hf).imp_right fun hplace =>
    .inl (hplace.resolve_right fun hlost => hl place data hlost hf)

/-- What no file is lost of has the same files where none may change. -/
theorem Frame.hasFile_iff (h : Frame may (fun _ => False) tree after) (hm : ¬ may place) :
    after.HasFile place data ↔ tree.HasFile place data :=
  ⟨fun hf => (h.new place data hf).resolve_right hm,
    fun hf => (h.kept place data hf).resolve_right (by simp [hm])⟩

/-- Where the temporary file takes nobody's name, a write loses no file. -/
theorem frame_of_unused (hunused : tree.TemporaryIsUnused path stamp here)
    (h : tree.writeAtomic path contents stamp here = (after, r)) :
    Frame (fun place => r = .ok () ∧ after.locate path here = .ok place) (fun _ => False) tree
      after := by
  refine (frame_withFolder tree path here).trans ((replaces_of_writeAtomic h).frame.of_not_lost ?_)
  rintro place data ⟨written, folder, name, hwritten, rfl, temporary⟩
  refine temporary.pathExists_eq_false_iff.1 (hunused _ ?_) data
  rw [temporaryPath?, hwritten, Option.map_some]

end Keeping

section Replace

/-- A path that names an entry can be written to. -/
theorem Names.writable (h : tree.Names path here folder name)
    (hshort : name.utf8ByteSize ≤ Path.maxSegmentBytes) :
    tree.writable path here = .ok (folder ++ [name]) := by
  obtain ⟨before, hs, hwalk⟩ := h.walk
  obtain ⟨hidle, hup⟩ := h.segment
  obtain ⟨hempty, hdot⟩ := Path.isIdle_eq_false_iff.1 hidle
  have hslash : Path.endsInSlash path = false := by
    obtain ⟨hsegments, -⟩ := takenSegments_eq_ok hs
    rw [← Bool.not_eq_true]
    intro hslash
    have hlast := Path.getLast?_segments_iff.2 (.inr hslash)
    rw [← hsegments, List.getLast?_concat] at hlast
    exact hempty (Option.some.inj hlast)
  rw [FileTree.writable]
  refine bind_eq_ok_iff.2 ⟨_, hs, ?_⟩
  rw [List.reverse_concat, List.dropWhile_cons_of_neg (by simpa using hempty)]
  dsimp only
  rw [List.reverse_reverse]
  refine bind_eq_ok_iff.2 ⟨folder, walk_concat_dot_iff.2 ⟨hwalk, h.parent⟩, ?_⟩
  rw [if_neg (by simp [hdot, hup, hslash])]
  cases hnode : tree.get? (folder ++ [name]) with
  | some node =>
    rw [step_entry h.parent hidle hup hnode]
    dsimp only
    rw [if_neg (mt any_isDir_iff.1 h.free)]
    rfl
  | none =>
    rw [step_of_none h.parent hidle hup hshort hnode]
    rfl

theorem rename_eq_ok {source : String} {old new : List String} {node : FileTree}
    (hs : tree.locate source here = .ok old) (hold : tree.get? old = some node)
    (hw : tree.writable path here = .ok new) :
    tree.rename source path here = .ok ((tree.remove old).put new node) :=
  bind_eq_ok_iff.2 ⟨old, hs, bind_eq_ok_iff.2 ⟨new, hw, by rw [hold]; rfl⟩⟩

/-- A file is replaced where the path and the temporary one name entries of the tree. -/
theorem exists_replaceFile (hwritten : Path.fileName? path = some written)
    (temporary : tree.Names (Path.join folderPath (temporaryName stamp written)) here folder name)
    (hshort : name.utf8ByteSize ≤ Path.maxSegmentBytes)
    (named : tree.Names path here target entry) (hentry : entry.utf8ByteSize ≤ Path.maxSegmentBytes) :
    ∃ after, tree.replaceFile folderPath path contents stamp here = (after, .ok ()) := by
  have hthere := get?_put_self temporary.parent name (.file (.ofText contents))
  have hwrite : tree.writeFile (Path.join folderPath (temporaryName stamp written)) contents here =
      .ok (tree.put (folder ++ [name]) (.file (.ofText contents))) :=
    map_eq_ok_iff.2 ⟨_, temporary.writable hshort, rfl⟩
  have hnamed : (tree.put (folder ++ [name]) (.file (.ofText contents))).Names path here target entry :=
    named.of_hasDir_iff fun _ => hasDir_put_iff temporary.parent temporary.free
  have hrename := rename_eq_ok (temporary.locate_put _) hthere (hnamed.writable hentry)
  rw [replaceFile, hwritten]
  dsimp only
  rw [hwrite, atPath, mapError_eq_ok_iff.2 rfl]
  dsimp only
  rw [hrename, atPath, mapError_eq_ok_iff.2 rfl]
  exact ⟨_, rfl⟩

end Replace

section Success

/-- What is in the way of writing to a path: it has no file name, it ends in a slash, a directory has its
name, or some of its segments lead to what is no directory and more follow. -/
inductive IsBlocked (tree : FileTree) (path : String) (here : List String) : Prop
  | noName (name : Path.fileName? path = none)
  | slash (ending : Path.endsInSlash path = true)
  | directory (there : tree.isDirAt path here = true)
  | noDirectory {front rest place : List String} (segments : Path.segments path = front ++ rest)
      (more : rest ≠ []) (walk : front.foldlM tree.step (startOf here path) = .ok place)
      (there : ¬ tree.HasDir place)

/-- What is written is written from a directory on. -/
theorem hasDir_of_writeAtomic (h : tree.writeAtomic path contents stamp here = (after, .ok ())) :
    tree.HasDir (startOf here path) := by
  refine Classical.byContradiction fun hno => ?_
  cases replaces_of_writeAtomic h with
  | done hwritten temporary named =>
    obtain ⟨before, hs, hwalk⟩ := named.walk
    have hseen := startOf_folderOf (takenSegments_eq_ok hs).1.symm named.segment.1 here
    -- The two files on the way change no directory, and where none is none is made.
    have hdir := hasDir_of_walk hwalk named.parent
    rw [temporary.hasDir_put_remove_iff, withFolder_of_not_hasDir (hseen ▸ hno)] at hdir
    exact hno hdir

/-- A write to a path that is blocked fails. -/
theorem IsBlocked.ne_ok (hblocked : tree.IsBlocked path here)
    (hframe : Frame (fun place => r = .ok () ∧ after.locate path here = .ok place) (fun _ => False) tree
      after)
    (h : tree.writeAtomic path contents stamp here = (after, r)) : r ≠ .ok () := by
  rintro rfl
  obtain ⟨target, htarget, hfile⟩ := read_eq_ok_iff.1 (read_writeAtomic h)
  cases hblocked with
  | noName hname =>
    cases replaces_of_writeAtomic h with
    | done hwritten _ _ =>
      rw [hname] at hwritten
      cases hwritten
  | slash hslash =>
    cases replaces_of_writeAtomic h with
    | done _ _ named =>
      have hlast := named.getLast?_segments
      rw [Path.getLast?_segments_iff.2 (.inr hslash)] at hlast
      have hidle := named.segment.1
      rw [← Option.some.inj hlast] at hidle
      cases hidle
  | directory hdir =>
    obtain ⟨place, hplace, hdir⟩ := isDirAt_iff.1 hdir
    obtain ⟨inside, hs, hwalk⟩ := bind_eq_ok_iff.1 hplace
    obtain ⟨inside', hs', hwalk'⟩ := bind_eq_ok_iff.1 htarget
    obtain rfl := Except.ok.inj (hs.symm.trans hs')
    obtain rfl := eq_of_walks hwalk hwalk'
    exact hfile.not_hasDir (hframe.dirs _ hdir)
  | @noDirectory front rest place hsegments hrest hwalk hthere =>
    obtain ⟨data, hthere⟩ := exists_hasFile_of_walk (hasDir_of_writeAtomic h) hwalk hthere
    obtain ⟨inside, hs, hwalk'⟩ := bind_eq_ok_iff.1 htarget
    obtain ⟨rfl, -⟩ := takenSegments_eq_ok hs
    obtain ⟨segment, more, rfl⟩ := List.exists_cons_of_ne_nil hrest
    rw [hsegments, List.foldlM_append] at hwalk'
    obtain ⟨next, hfront, hmore⟩ := bind_eq_ok_iff.1 hwalk'
    obtain rfl := eq_of_walks hwalk hfront
    obtain ⟨_, hstep, -⟩ := bind_eq_ok_iff.1 hmore
    have hdir := (step_eq_ok_iff.1 hstep).1
    -- The file on the way is there still, or it is the one that was written.
    obtain hsame | ⟨⟨-, hto⟩⟩ | hlost := hframe.kept _ _ hthere
    · exact hsame.not_hasDir hdir
    · obtain rfl := Except.ok.inj (htarget.symm.trans hto)
      exact hfile.not_hasDir hdir
    · exact hlost

/-- A path as writers use them: it never steps up, ends in the name of the file, and neither it nor the
path of the temporary file is longer than the system takes. -/
structure IsOrdinary (path stamp : String) : Prop where
  downward : Path.IsDownward path
  ending : (Path.segments path).getLast? = Path.fileName? path
  usable : Path.isUsable path = true
  short : ∀ segment ∈ Path.segments path, segment.utf8ByteSize ≤ Path.maxSegmentBytes
  temporary : ∀ name, Path.fileName? path = some name →
    (temporaryName stamp name).utf8ByteSize ≤ Path.maxSegmentBytes ∧
      Path.isUsable (Path.join (folderOf path) (temporaryName stamp name)) = true

theorem isSegment_of_fileName? (h : Path.fileName? path = some name) :
    Path.isIdle name = false ∧ name ≠ Path.upSegment := by
  rw [Path.fileName?] at h
  split at h
  · split at h
    · cases h
    · rename_i hname
      obtain rfl := Option.some.inj h
      simpa using hname
  · cases h

theorem IsOrdinary.exists_segments (h : IsOrdinary path stamp) :
    ∃ front name, Path.segments path = front ++ [name] ∧ Path.fileName? path = some name ∧
      Path.isIdle name = false ∧ name ≠ Path.upSegment := by
  have hname := List.getLast?_eq_some_getLast (Path.segments_ne_nil path)
  obtain ⟨front, hfront⟩ := List.getLast?_eq_some_iff.1 hname
  have hwritten := h.ending.symm.trans hname
  exact ⟨front, _, hfront, hwritten, isSegment_of_fileName? hwritten⟩

/-- A path names the entry of the directory that its segments lead to. -/
theorem names_of_hasDir (hs : takenSegments path = .ok (front ++ [name]))
    (hup : Path.upSegment ∉ front) (hname : Path.isIdle name = false ∧ name ≠ Path.upSegment)
    (hd : tree.HasDir (startOf here path ++ front.filter (!Path.isIdle ·)))
    (hfree : ¬ tree.HasDir (startOf here path ++ front.filter (!Path.isIdle ·) ++ [name])) :
    tree.Names path here (startOf here path ++ front.filter (!Path.isIdle ·)) name where
  walk := ⟨front, hs, walk_of_hasDir hup hd⟩
  segment := hname
  parent := hd
  free := hfree

/-- The path of the temporary file goes through the directory of the path to a name of its own. -/
theorem exists_takenSegments_temporary (hpath : Path.IsDownward path)
    (h : Path.segments path = front ++ [written]) (hwritten : Path.isIdle written = false)
    (hstamp : IsStamp stamp)
    (husable : Path.isUsable (Path.join (folderOf path) (temporaryName stamp written)) = true) :
    ∃ start, takenSegments (Path.join (folderOf path) (temporaryName stamp written)) =
        .ok (start ++ [temporaryName stamp written]) ∧
      start.filter (!Path.isIdle ·) = front.filter (!Path.isIdle ·) ∧ Path.upSegment ∉ start := by
  obtain ⟨hsteps, -⟩ := Path.steps_folderOf h hwritten
  have hfolderPath := hpath.folderOf h hwritten
  have hmem : written ∈ Path.segments path := h ▸ List.mem_append_right front (List.mem_singleton_self _)
  have hslash : '/' ∉ (temporaryName stamp written).toList :=
    not_mem_temporaryName (fun hc => (hstamp _ hc).1 rfl) (Path.not_mem_slash hmem) (by decide)
  have hnul : '\x00' ∉ (temporaryName stamp written).toList :=
    not_mem_temporaryName (fun hc => (hstamp _ hc).2 rfl)
      (Path.hasNul_eq_false_iff.1 hpath.noNul _ hmem) (by decide)
  obtain ⟨start, idle, hjoin, hfolder, hidle⟩ :=
    Path.exists_segments_join (folderOf path) (isAbsolute_temporaryName stamp written)
  rw [Path.segments_of_not_mem hslash] at hjoin
  have hstart {segment} (hs : segment ∈ start) : segment ∈ Path.segments (folderOf path) :=
    hfolder ▸ List.mem_append_left idle hs
  refine ⟨start, Path.takenSegments_eq_ok_iff.2 ⟨hjoin.symm, ?_, ?_, husable⟩, ?_, fun hs => ?_⟩
  · intro hempty
    have hlast := congrArg List.getLast? hjoin
    rw [hempty, List.getLast?_concat] at hlast
    have hname := (isSegment_temporaryName stamp written).1
    rw [← Option.some.inj hlast] at hname
    cases hname
  · refine Path.hasNul_eq_false_iff.2 fun segment hs => ?_
    rw [hjoin, List.mem_append, List.mem_singleton] at hs
    obtain hs | rfl := hs
    · exact Path.hasNul_eq_false_iff.1 hfolderPath.noNul _ (hstart hs)
    · exact hnul
  · rw [← hsteps, Path.steps, hfolder, List.filter_append, Path.filter_idle hidle, List.append_nil]
  · exact not_mem_of_noUp hfolderPath.noUp (hstart hs)

/-- Where nothing has the name of the temporary file, its path names an entry next to the target. -/
theorem temporary_names (hpath : Path.IsDownward path)
    (h : Path.segments path = front ++ [written]) (hwritten : Path.isIdle written = false)
    (hstamp : IsStamp stamp)
    (husable : Path.isUsable (Path.join (folderOf path) (temporaryName stamp written)) = true)
    (hd : made.HasDir (startOf here path ++ front.filter (!Path.isIdle ·)))
    (hunused : made.pathExists (Path.join (folderOf path) (temporaryName stamp written)) here = false) :
    made.Names (Path.join (folderOf path) (temporaryName stamp written)) here
      (startOf here path ++ front.filter (!Path.isIdle ·)) (temporaryName stamp written) := by
  obtain ⟨start, htaken, hstart, hup⟩ :=
    exists_takenSegments_temporary hpath h hwritten hstamp husable
  have hname := isSegment_temporaryName stamp written
  have hseen : startOf here (Path.join (folderOf path) (temporaryName stamp written)) =
      startOf here path := by
    rw [startOf_join here _ (isAbsolute_temporaryName stamp written), startOf_folderOf h hwritten]
  rw [← hstart, ← hseen] at hd ⊢
  refine names_of_hasDir htaken hup hname hd fun hdir => ?_
  obtain ⟨entries, hnode⟩ := hdir
  have hfound := pathExists_iff.2 ⟨_, _, locate_of_hasDir htaken hup hname ⟨entries, hnode⟩, hnode⟩
  rw [hunused] at hfound
  cases hfound

/-- A file where a directory has to be is in the way. -/
theorem IsBlocked.of_hasFile {more : List String} (h : Path.segments path = front ++ [name])
    (hup : Path.upSegment ∉ front) (hmore : more <+: front.filter (!Path.isIdle ·))
    (hfile : tree.HasFile (startOf here path ++ more) data) : tree.IsBlocked path here := by
  obtain ⟨start, rest, hfront, hwalk⟩ := exists_walk_of_hasFile hup hmore hfile
  have hsplit : Path.segments path = start ++ (rest ++ [name]) := by
    rw [h, hfront, List.append_assoc]
  exact .noDirectory hsplit (by simp) hwalk hfile.not_hasDir

/-- A write to an ordinary path succeeds unless it is blocked. -/
theorem IsOrdinary.exists_writeAtomic (h : IsOrdinary path stamp) (hstamp : IsStamp stamp)
    (hunused : tree.TemporaryIsUnused path stamp here) (hblocked : ¬ tree.IsBlocked path here) :
    ∃ after, tree.writeAtomic path contents stamp here = (after, .ok ()) := by
  obtain ⟨front, name, hsegments, hname, hsegment⟩ := h.exists_segments
  obtain ⟨hshort, husable⟩ := h.temporary name hname
  have hd : tree.HasDir (startOf here path) :=
    Classical.byContradiction fun hno =>
      hblocked (.noDirectory (List.nil_append _).symm (Path.segments_ne_nil path) rfl hno)
  have hup : Path.upSegment ∉ front := fun hs =>
    not_mem_of_noUp h.downward.noUp (hsegments ▸ List.mem_append_left [name] hs)
  have hlengths : ∀ segment ∈ front, segment.utf8ByteSize ≤ Path.maxSegmentBytes := fun segment hs =>
    h.short segment (hsegments ▸ List.mem_append_left [name] hs)
  have hfolder : Path.isUsable (folderOf path) = true := by
    have hle := Path.utf8ByteSize_join_le (folderOf path) (isAbsolute_temporaryName stamp name)
    rw [Path.isUsable_iff] at husable ⊢
    omega
  have hfree (more data) (hmore : more <+: front.filter (!Path.isIdle ·)) :
      ¬ tree.HasFile (startOf here path ++ more) data :=
    fun hfile => hblocked (.of_hasFile hsegments hup hmore hfile)
  obtain ⟨hreplace, hdir, hmade⟩ := writeAtomic_eq_replaceFile h.downward hsegments hsegment.1 hlengths
    hfolder hd hfree contents stamp
  have hne : path ≠ "" := by
    rintro rfl
    cases hname
  have htaken : takenSegments path = .ok (front ++ [name]) :=
    Path.takenSegments_eq_ok_iff.2 ⟨hsegments.symm, hne, h.downward.noNul, h.usable⟩
  have hnames := names_of_hasDir htaken hup hsegment hdir fun hd => by
    obtain hd | hprefix := hmade _ hd
    · exact hblocked (.directory (isDirAt_iff.2 ⟨_, locate_of_hasDir htaken hup hsegment hd, hd⟩))
    · exact absurd hprefix.length_le (by simp)
  have htemporary := temporary_names h.downward hsegments hsegment.1 hstamp husable hdir
    (hunused _ (by rw [temporaryPath?, hname, Option.map_some]))
  rw [hreplace]
  exact exists_replaceFile hname htemporary hshort hnames
    (h.short name (hsegments ▸ List.mem_append_right front (List.mem_singleton_self name)))

end Success

/-- A write is all or nothing. Either the path leads to a file with just the contents and every other file
is as it was, or the write fails and all files are as they were; directories and the lack of a temporary
file are kept in both cases. It fails where it is blocked, and an ordinary path that is not blocked is
written to. -/
theorem writeAtomic_allOrNothing (tree : FileTree) (path contents stamp : String) (here : List String)
    (hstamp : IsStamp stamp) (hunused : tree.TemporaryIsUnused path stamp here) :
    ∃ after r, tree.writeAtomic path contents stamp here = (after, r) ∧
      tree.KeepsDirs after ∧
      (∀ temporary, temporaryPath? path stamp = some temporary →
        after.pathExists temporary here = false) ∧
      (r = .ok () ∧ (∃ target, after.locate path here = .ok target ∧
          after.HasFile target (.ofText contents) ∧
          ∀ place data, place ≠ target → (after.HasFile place data ↔ tree.HasFile place data)) ∨
        (∃ fault, r = .error fault) ∧
          ∀ place data, after.HasFile place data ↔ tree.HasFile place data) ∧
      (tree.IsBlocked path here → r ≠ .ok ()) ∧
      (IsOrdinary path stamp → ¬ tree.IsBlocked path here → r = .ok ()) := by
  obtain ⟨after, r, h⟩ : ∃ after r, tree.writeAtomic path contents stamp here = (after, r) :=
    ⟨_, _, rfl⟩
  have hframe := frame_of_unused hunused h
  refine ⟨after, r, h, hframe.dirs, fun temporary ht => ?_, ?_,
    fun hblocked => hblocked.ne_ok hframe h, fun hordinary hfree => ?_⟩
  · obtain ⟨written, hwritten, rfl⟩ := Option.map_eq_some_iff.1 ht
    exact (replaces_of_writeAtomic h).pathExists_temporary (fun hc => (hstamp _ hc).1 rfl) hwritten
      (hunused _ ht)
  · cases r with
    | ok u =>
      obtain ⟨target, htarget, hfile⟩ := read_eq_ok_iff.1 (read_writeAtomic h)
      refine .inl ⟨rfl, target, htarget, hfile, fun place data hplace => hframe.hasFile_iff ?_⟩
      rintro ⟨-, hto⟩
      exact hplace (Except.ok.inj (hto.symm.trans htarget))
    | error fault =>
      refine .inr ⟨⟨fault, rfl⟩, fun place data => hframe.hasFile_iff ?_⟩
      rintro ⟨hr, -⟩
      cases hr
  · obtain ⟨after', h'⟩ := hordinary.exists_writeAtomic hstamp hunused hfree
    exact congrArg Prod.snd (h.symm.trans h')

theorem writeAtomic_allOrNothing_twoFiles :
    let tree := dir [("w", dir [("out", dir [("a", file (.zeros 1)), ("b", file (.zeros 2))])])]
    IsStamp "7.1" ∧ tree.TemporaryIsUnused "out/a" "7.1" ["w"] ∧
      tree.TemporaryIsUnused "/w/out/b/c" "7.1" ["w"] ∧
      (∃ after, tree.writeAtomic "out/a" "x" "7.1" ["w"] = (after, .ok ()) ∧
        ∀ place data, place ≠ ["w", "out", "a"] →
          (after.HasFile place data ↔ tree.HasFile place data)) ∧
      ∃ after fault, tree.writeAtomic "/w/out/b/c" "x" "7.1" ["w"] = (after, .error fault) ∧
        ∀ place data, after.HasFile place data ↔ tree.HasFile place data := by
  intro tree
  have hstamp : IsStamp "7.1" := by simp [IsStamp]
  have hunused : tree.TemporaryIsUnused "out/a" "7.1" ["w"] := by
    intro temporary h
    obtain rfl := Option.some.inj (h.symm.trans (by decide +kernel : _ = some "out/.a.7.1.tmp"))
    decide +kernel
  have hunused' : tree.TemporaryIsUnused "/w/out/b/c" "7.1" ["w"] := by
    intro temporary h
    obtain rfl := Option.some.inj (h.symm.trans (by decide +kernel : _ = some "/w/out/b/.c.7.1.tmp"))
    decide +kernel
  have hordinary : IsOrdinary "out/a" "7.1" := by
    refine ⟨⟨by decide, by decide⟩, by decide, by decide, by decide, fun name h => ?_⟩
    obtain rfl := Option.some.inj (h.symm.trans (by decide +kernel : _ = some "a"))
    decide +kernel
  have hfree : ¬ tree.IsBlocked "out/a" ["w"] := by
    intro h
    cases h with
    | noName name => exact absurd name (by decide)
    | slash ending => exact absurd ending (by decide)
    | directory there => exact absurd there (by decide +kernel)
    | @noDirectory front rest place hsegments more walk there =>
      -- Both in front of the directory and behind it there is one.
      have hpath : Path.segments "out/a" = ["out", "a"] := by decide +kernel
      rw [hpath] at hsegments
      obtain _ | ⟨first, _ | ⟨second, front⟩⟩ := front
      · obtain rfl := Except.ok.inj walk
        exact there ⟨_, rfl⟩
      · obtain ⟨rfl, -⟩ := List.cons.inj hsegments
        have hout : ["out"].foldlM tree.step ["w"] = .ok ["w", "out"] := rfl
        obtain rfl := Except.ok.inj (hout.symm.trans walk)
        exact there ⟨_, rfl⟩
      · obtain ⟨-, hsegments⟩ := List.cons.inj hsegments
        obtain ⟨-, hsegments⟩ := List.cons.inj hsegments
        exact more (List.append_eq_nil_iff.1 hsegments.symm).2
  have hblocked : tree.IsBlocked "/w/out/b/c" ["w"] := by
    have hpath : Path.segments "/w/out/b/c" = ["", "w", "out", "b"] ++ ["c"] := by decide +kernel
    have hwalk : ["", "w", "out", "b"].foldlM tree.step [] = .ok ["w", "out", "b"] := rfl
    have hfile : tree.HasFile ["w", "out", "b"] (.zeros 2) := rfl
    exact .noDirectory hpath (by decide) hwalk hfile.not_hasDir
  refine ⟨hstamp, hunused, hunused', ?_, ?_⟩
  · obtain ⟨after, r, h, -, -, hend, -, hok⟩ :=
      writeAtomic_allOrNothing tree "out/a" "x" "7.1" ["w"] hstamp hunused
    obtain rfl := hok hordinary hfree
    obtain ⟨-, target, htarget, -, hsame⟩ | ⟨⟨fault, hr⟩, -⟩ := hend
    · obtain rfl : target = ["w", "out", "a"] := eq_steps_of_locate htarget (by decide)
      exact ⟨after, h, hsame⟩
    · cases hr
  · obtain ⟨after, r, h, -, -, hend, hfails, -⟩ :=
      writeAtomic_allOrNothing tree "/w/out/b/c" "x" "7.1" ["w"] hstamp hunused'
    obtain ⟨hr, -⟩ | ⟨⟨fault, rfl⟩, hsame⟩ := hend
    · exact absurd hr (hfails hblocked)
    · exact ⟨after, fault, h, hsame⟩

end ApiSurface.FileTree
