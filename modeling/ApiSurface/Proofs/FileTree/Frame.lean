import ApiSurface.Proofs.FileTree.Path

namespace ApiSurface.FileTree

variable {tree tree' : FileTree} {place more folder old : List String} {name : String}
  {node : FileTree} {data d : FileData}

/-- There is a file with these contents at a place. -/
def HasFile (tree : FileTree) (place : List String) (data : FileData) : Prop :=
  tree.get? place = some (.file data)

section HasFile

theorem not_hasFile_dir_nil {entries : List (String × FileTree)} : ¬ (dir entries).HasFile [] data := by
  intro h
  cases Option.some.inj h

theorem hasFile_cons_iff : tree.HasFile (name :: place) data ↔
    ∃ child, tree.child? name = some child ∧ child.HasFile place data :=
  Option.bind_eq_some_iff

/-- What lies below a place lies in a directory there. -/
theorem HasFile.hasDir (h : tree.HasFile (place ++ name :: more) data) : tree.HasDir place := by
  rw [HasFile, get?_append, Option.bind_eq_some_iff] at h
  obtain ⟨node, hnode, h⟩ := h
  cases node with
  | file data => cases h
  | dir entries => exact ⟨entries, hnode⟩

theorem hasFile_file_iff : (file data).HasFile place d ↔ place = [] ∧ d = data := by
  cases place with
  | nil => simp [HasFile, get?, eq_comm]
  | cons name place => simp [HasFile, get?, child?]

theorem not_hasFile_empty : ¬ (dir []).HasFile place data := by
  cases place with
  | nil => exact not_hasFile_dir_nil
  | cons name place => simp [HasFile, get?, child?]

/-- The files after a node is put into a directory: those of the node, and those that lie elsewhere. -/
theorem hasFile_put_iff (h : tree.HasDir folder) : (tree.put (folder ++ [name]) node).HasFile place d ↔
    (∃ more, place = folder ++ name :: more ∧ node.HasFile more d) ∨
      ¬ folder ++ [name] <+: place ∧ tree.HasFile place d := by
  obtain ⟨more, rfl, hnode⟩ | ⟨hplace, hsame⟩ := get?_put h name node place
  · simp [HasFile, hnode]
  · have hiff : (tree.put (folder ++ [name]) node).HasFile place d ↔ tree.HasFile place d := by
      obtain hsame | ⟨⟨_, hnew⟩, _, hold⟩ := hsame
      · rw [HasFile, hsame, HasFile]
      · simp [HasFile, hnew, hold]
    rw [concat_prefix_iff] at hplace ⊢
    simp [not_exists.1 hplace, hiff]

/-- A node put where nothing was keeps all directories. -/
theorem keepsDirs_put (h : tree.HasDir folder) (hn : tree.get? (folder ++ [name]) = none) :
    tree.KeepsDirs (tree.put (folder ++ [name]) node) := by
  refine fun place hd => (hasDir_put h).2 (.inr ⟨?_, hd⟩)
  rintro ⟨more, rfl⟩
  obtain ⟨entries, he⟩ := hd.of_append
  rw [hn] at he
  cases he

/-- The files after one is taken away from below the root: all the others. -/
theorem hasFile_remove_iff (h : tree.HasFile old data) (hne : old ≠ []) :
    (tree.remove old).HasFile place d ↔ place ≠ old ∧ tree.HasFile place d := by
  induction old generalizing tree place with
  | nil => exact absurd rfl hne
  | cons m old ih =>
    obtain ⟨child, hc, hf⟩ := hasFile_cons_iff.1 h
    obtain ⟨entries, rfl, hl⟩ := child?_eq_some_iff.1 hc
    cases old with
    | nil =>
      obtain rfl : child = .file data := Option.some.inj hf
      rw [remove]
      cases place with
      | nil => simp [not_hasFile_dir_nil]
      | cons n place =>
        rw [hasFile_cons_iff, hasFile_cons_iff, child?, child?, lookup_filter_ne]
        by_cases hn : n = m
        · subst hn
          simp only [hl, if_pos, reduceCtorEq, false_and, exists_false, ne_eq, List.cons.injEq,
            true_and, Option.some.injEq, exists_eq_left', hasFile_file_iff, false_iff, not_and]
          exact fun hplace hnil => absurd hnil hplace
        · simp [hn]
    | cons m' old =>
      rw [remove_cons_cons hl]
      cases place with
      | nil => simp [not_hasFile_dir_nil]
      | cons n place =>
        rw [hasFile_cons_iff, hasFile_cons_iff, child?, child?, lookup_putEntry]
        by_cases hn : n = m
        · subst hn
          simp [hl, ih hf (List.cons_ne_nil m' old)]
        · simp [hn]

end HasFile

/-- Nothing but the files at the places of `may` is new or changed from `before` to `after`, nothing but
those and the files at the places of `lost` is gone, and all directories are there still. -/
structure Frame (may lost : List String → Prop) (before after : FileTree) : Prop where
  dirs : before.KeepsDirs after
  new : ∀ place data, after.HasFile place data → before.HasFile place data ∨ may place
  kept : ∀ place data, before.HasFile place data → after.HasFile place data ∨ may place ∨ lost place

/-- The place ends as the temporary files of a writer with this stamp do. -/
def IsTemporary (stamp : String) (place : List String) : Prop :=
  ∃ name, place.getLast? = (Path.segments (temporaryName stamp name)).getLast?

section Frame

variable {may lost may' lost' : List String → Prop} {tree'' : FileTree}
  {path contents stamp folderPath : String} {segments place' here : List String}

theorem Frame.refl (tree : FileTree) : tree.Frame may lost tree where
  dirs _ h := h
  new _ _ h := .inl h
  kept _ _ h := .inl h

theorem Frame.mono (h : Frame may lost tree tree') (hm : ∀ place, may place → may' place)
    (hl : ∀ place, lost place → lost' place) : Frame may' lost' tree tree' where
  dirs := h.dirs
  new place data hf := (h.new place data hf).imp_right (hm place)
  kept place data hf := (h.kept place data hf).imp_right (Or.imp (hm place) (hl place))

theorem Frame.mono_may (h : Frame may lost tree tree') (hm : ∀ place, may place → may' place) :
    Frame may' lost tree tree' := h.mono hm fun _ hl => hl

theorem Frame.trans (h : Frame may lost tree tree') (h' : Frame may lost tree' tree'') :
    Frame may lost tree tree'' where
  dirs place hd := h'.dirs place (h.dirs place hd)
  new place data hf := (h'.new place data hf).elim (h.new place data) .inr
  kept place data hf := (h.kept place data hf).elim (h'.kept place data) .inr

/-- Writing the entry that a path names changes that file alone. -/
theorem Names.frame_put (h : tree.Names path here folder name) (data : FileData) :
    Frame (· = folder ++ [name]) lost tree (tree.put (folder ++ [name]) (.file data)) where
  dirs place := (hasDir_put_iff h.parent h.free).2
  new place d hf := by
    obtain ⟨more, rfl, hnode⟩ | ⟨-, hf⟩ := (hasFile_put_iff h.parent).1 hf
    · obtain ⟨rfl, -⟩ := hasFile_file_iff.1 hnode
      exact .inr rfl
    · exact .inl hf
  kept place d hf := by
    by_cases hplace : folder ++ [name] <+: place
    · obtain ⟨more, rfl⟩ := hplace
      cases more with
      | nil => exact .inr (.inl (List.append_nil _))
      | cons n more => exact absurd hf.hasDir h.free
    · exact .inl ((hasFile_put_iff h.parent).2 (.inr ⟨hplace, hf⟩))

/-- A directory made where nothing was changes no file. -/
theorem frame_makeDir (h : tree.HasDir folder) (hn : tree.get? (folder ++ [name]) = none) :
    Frame may lost tree (tree.put (folder ++ [name]) (.dir [])) where
  dirs := keepsDirs_put h hn
  new place d hf := by
    obtain ⟨more, -, hnode⟩ | ⟨-, hf⟩ := (hasFile_put_iff h).1 hf
    · exact absurd hnode not_hasFile_empty
    · exact .inl hf
  kept place d hf := by
    refine .inl ((hasFile_put_iff h).2 (.inr ⟨?_, hf⟩))
    rintro ⟨more, rfl⟩
    rw [HasFile, get?_append, hn] at hf
    cases hf

/-- Where a step from a directory finds nothing the directory has no such entry. -/
theorem free_of_step_notFound (hd : tree.HasDir place) (h : tree.step place name = .error .notFound)
    (hup : name ≠ Path.upSegment) : tree.get? (place ++ [name]) = none := by
  obtain ⟨entries, he⟩ := hd
  rw [step, he] at h
  rw [get?_append, he, Option.bind_some, get?, child?]
  dsimp only at h
  rw [if_neg hup] at h
  cases hl : entries.lookup name with
  | none => rfl
  | some child =>
    rw [hl, if_pos Option.isSome_some] at h
    split at h <;> cases h

/-- Making directories changes no file. -/
theorem frame_makeDirs (tree : FileTree) (place segments : List String) :
    Frame may lost tree (tree.makeDirs place segments).1 := by
  induction segments generalizing tree place with
  | nil => exact .refl tree
  | cons segment segments ih =>
    rw [makeDirs]
    cases hs : tree.step place segment with
    | ok next => exact ih tree next
    | error e =>
      dsimp only
      split
      · rename_i hmake
        obtain ⟨rfl, hup, hthere⟩ := hmake
        have hdir : tree.HasDir place := any_isDir_iff.1 hthere
        exact (frame_makeDir hdir (free_of_step_notFound hdir hs hup)).trans (ih _ _)
      · exact .refl tree

theorem frame_createDirs (tree : FileTree) (path : String) (here : List String) :
    Frame may lost tree (tree.createDirs path here).1 := by
  unfold createDirs
  split
  · exact frame_makeDirs tree _ _
  · exact .refl tree

/-- A file that is written is the one that the path leads to, and no other changes. -/
theorem frame_writeFile (h : tree.writeFile path contents here = .ok tree') :
    ∃ place, tree'.locate path here = .ok place ∧ Frame (· = place) lost tree tree' := by
  obtain ⟨place, hplace, rfl⟩ := map_eq_ok_iff.1 h
  obtain ⟨folder, name, rfl, hnames⟩ := names_of_writable hplace
  exact ⟨_, hnames.locate_put _, hnames.frame_put _⟩

theorem isAbsolute_temporaryName (stamp name : String) :
    Path.isAbsolute (temporaryName stamp name) = false := by
  have hhead : (temporaryName stamp name).toList.head? = some '.' := by
    simp [temporaryName]
  rw [Path.isAbsolute, hhead]
  rfl

/-- The entry that the temporary path names ends as temporary files do. -/
theorem Names.isTemporary {written : String}
    (h : tree.Names (Path.join folderPath (temporaryName stamp written)) here folder name) :
    IsTemporary stamp (folder ++ [name]) := by
  refine ⟨written, ?_⟩
  rw [← Path.getLast?_segments_join folderPath (isAbsolute_temporaryName stamp written),
    h.getLast?_segments, List.getLast?_concat]

/-- A file that is written and taken away again leaves every other file. -/
theorem Names.frame_put_remove (h : tree.Names path here folder name) (data : FileData) :
    Frame may (· = folder ++ [name]) tree
      ((tree.put (folder ++ [name]) (.file data)).remove (folder ++ [name])) := by
  have hput : Frame _ (fun _ => False) tree _ := h.frame_put data
  have hthere : (tree.put (folder ++ [name]) (.file data)).HasFile (folder ++ [name]) data :=
    get?_put_self h.parent name _
  have hremove {place d} := @hasFile_remove_iff _ place _ _ d hthere (by simp)
  refine ⟨fun place hd => ?_, fun place d hf => ?_, fun place d hf => ?_⟩
  · exact (h.hasDir_put_remove_iff data).2 hd
  · obtain ⟨hplace, hf⟩ := hremove.1 hf
    exact .inl ((hput.new place d hf).resolve_right hplace)
  · by_cases hplace : place = folder ++ [name]
    · exact .inr (.inr hplace)
    · have hwritten := (hput.kept place d hf).resolve_right (by simpa using hplace)
      exact .inl (hremove.2 ⟨hplace, hwritten⟩)

/-- The place of the temporary file through which a writer that finds this tree replaces a file. -/
def IsTemporaryPlace (tree : FileTree) (folderPath path stamp : String) (here place : List String) :
    Prop :=
  ∃ written folder name, Path.fileName? path = some written ∧ place = folder ++ [name] ∧
    tree.Names (Path.join folderPath (temporaryName stamp written)) here folder name

/-- Replacing a file through a temporary one changes that file alone, and none if it fails. -/
theorem Replaces.frame {r : Except Fault Unit}
    (h : Replaces tree folderPath path contents stamp here tree' r) :
    Frame (fun place => r = .ok () ∧ tree'.locate path here = .ok place)
      (tree.IsTemporaryPlace folderPath path stamp here) tree tree' := by
  -- Renamed or not, the temporary file is gone again.
  have hundone {may written folder name} (hwritten : Path.fileName? path = some written)
      (temporary : tree.Names (Path.join folderPath (temporaryName stamp written)) here folder name) :
      Frame may (tree.IsTemporaryPlace folderPath path stamp here) tree
        ((tree.put (folder ++ [name]) (.file (.ofText contents))).remove (folder ++ [name])) :=
    (temporary.frame_put_remove _).mono (fun _ hm => hm) fun _ hplace =>
      ⟨written, folder, name, hwritten, hplace, temporary⟩
  cases h with
  | refused fault => exact .refl tree
  | undone fault hwritten temporary => exact hundone hwritten temporary
  | done hwritten temporary named =>
    refine (hundone hwritten temporary).trans ((named.frame_put _).mono_may fun place hplace => ?_)
    subst hplace
    exact ⟨rfl, named.locate_put _⟩

theorem frame_withFolder (tree : FileTree) (path : String) (here : List String) :
    Frame may lost tree (tree.withFolder path here) := by
  unfold withFolder
  split
  · exact .refl tree
  · exact frame_createDirs tree _ here

/-- What is written as a whole or not at all changes the file that the path leads to, and no file if it
fails; only a file where the temporary one was can be gone. -/
theorem frame_writeAtomic {r : Except Fault Unit}
    (h : tree.writeAtomic path contents stamp here = (tree', r)) :
    Frame (fun place => r = .ok () ∧ tree'.locate path here = .ok place) (IsTemporary stamp)
      tree tree' := by
  refine (frame_withFolder tree path here).trans ?_
  refine (replaces_of_writeAtomic h).frame.mono (fun _ hm => hm) fun place hplace => ?_
  obtain ⟨written, folder, name, -, rfl, temporary⟩ := hplace
  exact temporary.isTemporary

/-- What is written to a path that stays below the working place changes the file at its steps from
there alone. -/
theorem frame_writeBelow {r : Except Fault Unit} (hpath : Path.StaysBelow path)
    (h : tree.writeAtomic path contents stamp here = (tree', r)) :
    Frame (fun place => r = .ok () ∧ place = here ++ Path.steps path) (IsTemporary stamp) tree tree' :=
  (frame_writeAtomic h).mono_may fun _ hplace => ⟨hplace.1, eq_steps_of_staysBelow hplace.2 hpath⟩

end Frame

end ApiSurface.FileTree
