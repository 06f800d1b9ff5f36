import ApiSurface.FileTree.Write
import ApiSurface.Reader

namespace ApiSurface.FileTree

section Entries

variable {node : FileTree} {entries : List (String × FileTree)}

theorem lookup_cons_if (n other : String) (node : FileTree) (entries : List (String × FileTree)) :
    ((n, node) :: entries).lookup other = if other = n then some node else entries.lookup other := by
  by_cases h : other = n
  · subst h
    rw [List.lookup_cons_self, if_pos rfl]
  · rw [List.lookup_cons, beq_false_of_ne h, if_neg h]

theorem lookup_putEntry (name other : String) (node : FileTree) (entries : List (String × FileTree)) :
    (putEntry name node entries).lookup other =
      if other = name then some node else entries.lookup other := by
  induction entries with
  | nil => exact lookup_cons_if name other node []
  | cons e entries ih =>
    obtain ⟨n, old⟩ := e
    rw [putEntry, lookup_cons_if]
    by_cases hn : n = name
    · subst hn
      rw [if_pos rfl, lookup_cons_if]
      by_cases h : other = n
      · rw [if_pos h, if_pos h]
      · rw [if_neg h, if_neg h, if_neg h]
    · rw [if_neg hn, lookup_cons_if, ih]
      by_cases h : other = n
      · rw [if_pos h, if_neg (h ▸ hn), if_pos h]
      · rw [if_neg h, if_neg h]

theorem lookup_filter_ne (name other : String) (entries : List (String × FileTree)) :
    (entries.filter (·.1 ≠ name)).lookup other =
      if other = name then none else entries.lookup other := by
  induction entries with
  | nil => simp
  | cons e entries ih =>
    obtain ⟨n, old⟩ := e
    rw [lookup_cons_if]
    by_cases hn : n = name
    · subst hn
      rw [List.filter_cons_of_neg (by simp), ih]
      by_cases h : other = n
      · rw [if_pos h, if_pos h]
      · rw [if_neg h, if_neg h, if_neg h]
    · rw [List.filter_cons_of_pos (by simpa using hn), lookup_cons_if, ih]
      by_cases h : other = n
      · rw [if_pos h, if_neg (h ▸ hn), if_pos h]
      · rw [if_neg h, if_neg h]

end Entries

section Places

variable {tree : FileTree} {place more folder old : List String} {name : String} {node : FileTree}
  {data : FileData}

theorem get?_append (tree : FileTree) (place more : List String) :
    tree.get? (place ++ more) = (tree.get? place).bind (·.get? more) := by
  induction place generalizing tree with
  | nil => rfl
  | cons n place ih =>
    rw [List.cons_append, get?, get?, Option.bind_assoc]
    exact congrArg _ (funext fun child => ih child)

/-- There is a directory at a place. -/
def HasDir (tree : FileTree) (place : List String) : Prop :=
  ∃ entries, tree.get? place = some (.dir entries)

theorem child?_eq_some_iff : tree.child? name = some node ↔
    ∃ entries, tree = .dir entries ∧ entries.lookup name = some node := by
  cases tree <;> simp [child?]

/-- What is taken away below an entry is taken away in that entry. -/
theorem remove_cons_cons {entries : List (String × FileTree)} {child : FileTree} {next : String}
    (h : entries.lookup name = some child) : (dir entries).remove (name :: next :: more) =
      dir (putEntry name (child.remove (next :: more)) entries) := by
  rw [remove, h]
  exact List.cons_ne_nil next more

theorem any_isDir_iff : (tree.get? place).any isDir = true ↔ tree.HasDir place := by
  unfold HasDir
  cases tree.get? place with
  | none => simp
  | some node => cases node <;> simp [isDir]

theorem hasDir_nil_iff : tree.HasDir [] ↔ ∃ entries, tree = .dir entries := by
  simp [HasDir, get?]

theorem hasDir_cons_iff : tree.HasDir (name :: place) ↔
    ∃ child, tree.child? name = some child ∧ child.HasDir place := by
  simp only [HasDir, get?, Option.bind_eq_some_iff]
  constructor
  · rintro ⟨entries, child, hc, h⟩
    exact ⟨child, hc, entries, h⟩
  · rintro ⟨child, hc, entries, h⟩
    exact ⟨entries, child, hc, h⟩

theorem not_hasDir_file : ¬ (file data).HasDir place := by
  cases place with
  | nil => simp [hasDir_nil_iff]
  | cons name place => simp [hasDir_cons_iff, child?]

/-- What lies below a place lies below directories. -/
theorem HasDir.of_append (h : tree.HasDir (place ++ more)) : tree.HasDir place := by
  induction place generalizing tree with
  | nil =>
    cases tree with
    | file data => exact absurd h not_hasDir_file
    | dir entries => exact hasDir_nil_iff.2 ⟨entries, rfl⟩
  | cons name place ih =>
    obtain ⟨child, hc, hd⟩ := hasDir_cons_iff.1 h
    exact hasDir_cons_iff.2 ⟨child, hc, ih hd⟩

/-- A directory is seen through the entries of the directories above it alone. -/
theorem hasDir_dir_congr {entries entries' : List (String × FileTree)}
    (h : ∀ name place, (∃ child, entries'.lookup name = some child ∧ child.HasDir place) ↔
      ∃ child, entries.lookup name = some child ∧ child.HasDir place) :
    (dir entries').HasDir place ↔ (dir entries).HasDir place := by
  cases place with
  | nil => simp [hasDir_nil_iff]
  | cons name place =>
    rw [hasDir_cons_iff, hasDir_cons_iff]
    exact h name place

section Put

theorem get?_put_self (h : tree.HasDir folder) (name : String) (node : FileTree) :
    (tree.put (folder ++ [name]) node).get? (folder ++ [name]) = some node := by
  induction folder generalizing tree with
  | nil =>
    obtain ⟨entries, rfl⟩ := hasDir_nil_iff.1 h
    simp only [List.nil_append, put, get?, child?, lookup_putEntry, if_pos, Option.bind_some]
  | cons n folder ih =>
    obtain ⟨child, hc, hf⟩ := hasDir_cons_iff.1 h
    obtain ⟨entries, rfl, hl⟩ := child?_eq_some_iff.1 hc
    simp only [List.cons_append, put, get?, child?, lookup_putEntry, if_pos, Option.bind_some, hl,
      Option.getD_some, ih hf]

theorem concat_prefix_iff : folder ++ [name] <+: place ↔ ∃ more, place = folder ++ name :: more := by
  simp [List.IsPrefix, eq_comm]

/-- What lies at a place after a node is put into a directory: at and below its own place what the node
has there, and elsewhere what was there, directories that hold the node being directories still. -/
theorem get?_put (h : tree.HasDir folder) (name : String) (node : FileTree) (place : List String) :
    (∃ more, place = folder ++ name :: more ∧
      (tree.put (folder ++ [name]) node).get? place = node.get? more) ∨
    ¬ folder ++ [name] <+: place ∧
      ((tree.put (folder ++ [name]) node).get? place = tree.get? place ∨
        (tree.put (folder ++ [name]) node).HasDir place ∧ tree.HasDir place) := by
  -- Down to the folder, one entry of each directory changes: the one on the way.
  induction folder generalizing tree place with
  | nil =>
    obtain ⟨entries, rfl⟩ := hasDir_nil_iff.1 h
    rw [List.nil_append, put, put]
    cases place with
    | nil => exact .inr ⟨by simp, .inr ⟨⟨_, rfl⟩, ⟨_, rfl⟩⟩⟩
    | cons n place =>
      rw [get?, get?, child?, child?, lookup_putEntry]
      by_cases hn : n = name
      · subst hn
        exact .inl ⟨place, rfl, by rw [if_pos rfl, Option.bind_some]⟩
      · rw [if_neg hn]
        exact .inr ⟨by simp [Ne.symm hn], .inl rfl⟩
  | cons m folder ih =>
    obtain ⟨child, hc, hf⟩ := hasDir_cons_iff.1 h
    obtain ⟨entries, rfl, hl⟩ := child?_eq_some_iff.1 hc
    rw [List.cons_append, put, hl, Option.getD_some]
    cases place with
    | nil => exact .inr ⟨by simp, .inr ⟨⟨_, rfl⟩, ⟨_, rfl⟩⟩⟩
    | cons n place =>
      rw [hasDir_cons_iff, hasDir_cons_iff, get?, get?, child?, child?, lookup_putEntry]
      by_cases hn : n = m
      · subst hn
        rw [if_pos rfl, hl, Option.bind_some, Option.bind_some, List.cons_prefix_cons]
        obtain ⟨more, rfl, hnode⟩ | ⟨hplace, hsame⟩ := ih hf place
        · exact .inl ⟨more, rfl, hnode⟩
        · refine .inr ⟨fun hp => hplace hp.2, hsame.imp_right fun hd => ?_⟩
          exact ⟨⟨_, rfl, hd.1⟩, ⟨_, rfl, hd.2⟩⟩
      · rw [if_neg hn]
        exact .inr ⟨fun hp => hn (List.cons_prefix_cons.1 hp).1.symm, .inl rfl⟩

/-- The directories after a node is put into one: those of the node, and those that lie elsewhere. -/
theorem hasDir_put (h : tree.HasDir folder) : (tree.put (folder ++ [name]) node).HasDir place ↔
    (∃ more, place = folder ++ name :: more ∧ node.HasDir more) ∨
      ¬ folder ++ [name] <+: place ∧ tree.HasDir place := by
  obtain ⟨more, rfl, hnode⟩ | ⟨hplace, hsame⟩ := get?_put h name node place
  · simp [HasDir, hnode]
  · have hiff : (tree.put (folder ++ [name]) node).HasDir place ↔ tree.HasDir place := by
      obtain hsame | ⟨hnew, hold⟩ := hsame
      · rw [HasDir, hsame, HasDir]
      · exact iff_of_true hnew hold
    rw [concat_prefix_iff] at hplace ⊢
    simp [not_exists.1 hplace, hiff]

/-- A file put where no directory is, into a directory that is there, changes no directory. -/
theorem hasDir_put_iff (h : tree.HasDir folder) (hn : ¬ tree.HasDir (folder ++ [name])) :
    (tree.put (folder ++ [name]) (.file data)).HasDir place ↔ tree.HasDir place := by
  rw [hasDir_put h]
  simp only [not_hasDir_file, and_false, exists_false, false_or, and_iff_right_iff_imp]
  rintro hd ⟨more, rfl⟩
  exact hn hd.of_append

/-- Taking a file away changes no directory. -/
theorem hasDir_remove_iff (h : tree.get? old = some (.file data)) :
    (tree.remove old).HasDir place ↔ tree.HasDir place := by
  induction old generalizing tree place with
  | nil =>
    obtain rfl : tree = .file data := Option.some.inj h
    rfl
  | cons n old ih =>
    obtain ⟨child, hc, hf⟩ := Option.bind_eq_some_iff.1 h
    obtain ⟨entries, rfl, hl⟩ := child?_eq_some_iff.1 hc
    cases old with
    | nil =>
      obtain rfl : child = .file data := Option.some.inj hf
      refine hasDir_dir_congr fun other place => ?_
      rw [lookup_filter_ne]
      by_cases ho : other = n
      · subst ho
        simp [hl, not_hasDir_file]
      · rw [if_neg ho]
    | cons m old =>
      rw [remove_cons_cons hl]
      refine hasDir_dir_congr fun other place => ?_
      rw [lookup_putEntry]
      by_cases ho : other = n
      · subst ho
        simp [hl, ih hf]
      · rw [if_neg ho]

end Put

section Walk

variable {tree' : FileTree} {segment path contents : String} {segments place' here : List String}

/-- A step is taken from a directory: in place, up, or to an entry. -/
theorem step_eq_ok_iff : tree.step place segment = .ok place' ↔ tree.HasDir place ∧
    (Path.isIdle segment = true ∧ place' = place ∨
      Path.isIdle segment = false ∧ segment = Path.upSegment ∧ place' = place.dropLast ∨
      Path.isIdle segment = false ∧ segment ≠ Path.upSegment ∧
        (tree.get? (place ++ [segment])).isSome ∧ place' = place ++ [segment]) := by
  unfold step
  cases hg : tree.get? place with
  | none => simp [HasDir, hg]
  | some node =>
    cases node with
    | file data => simp [HasDir, hg]
    | dir entries =>
      have hentry : tree.get? (place ++ [segment]) = entries.lookup segment := by
        rw [get?_append, hg, Option.bind_some, get?, child?]
        cases entries.lookup segment <;> rfl
      have hdir : tree.HasDir place := ⟨entries, hg⟩
      rw [hentry]
      dsimp only
      by_cases hidle : Path.isIdle segment = true
      · rw [if_pos hidle]
        simp [hdir, hidle, @eq_comm _ place']
      rw [if_neg hidle]
      have hupIdle : Path.isIdle Path.upSegment = false := rfl
      by_cases hup : segment = Path.upSegment
      · rw [if_pos hup]
        simp [hup, hdir, hupIdle, @eq_comm _ place']
      rw [if_neg hup]
      cases hl : entries.lookup segment with
      | some child => simp [hdir, hidle, hup, @eq_comm _ place']
      | none =>
        rw [if_neg (by simp)]
        split <;> simp [hidle, hup]

/-- What a directory holds under a name is one step from it. -/
theorem step_entry (hf : tree.HasDir folder) (hidle : Path.isIdle name = false)
    (hup : name ≠ Path.upSegment) (hn : tree.get? (folder ++ [name]) = some node) :
    tree.step folder name = .ok (folder ++ [name]) := by
  refine step_eq_ok_iff.2 ⟨hf, .inr (.inr ⟨hidle, hup, ?_, rfl⟩)⟩
  rw [hn, Option.isSome_some]

/-- The tree `tree'` has every directory that `tree` has. -/
def KeepsDirs (tree tree' : FileTree) : Prop := ∀ place, tree.HasDir place → tree'.HasDir place

theorem KeepsDirs.step (hk : tree.KeepsDirs tree') (h : tree.step place segment = .ok place')
    (hd : tree.HasDir place') : tree'.step place segment = .ok place' := by
  obtain ⟨hplace, hto⟩ := step_eq_ok_iff.1 h
  refine step_eq_ok_iff.2 ⟨hk _ hplace, ?_⟩
  obtain hto | hto | ⟨hidle, hup, -, rfl⟩ := hto
  · exact .inl hto
  · exact .inr (.inl hto)
  · obtain ⟨entries, he⟩ := hk _ hd
    exact .inr (.inr ⟨hidle, hup, by rw [he, Option.isSome_some], rfl⟩)

/-- A walk that ends at a directory begins at one. -/
theorem hasDir_of_walk (h : segments.foldlM tree.step place = .ok place') (hd : tree.HasDir place') :
    tree.HasDir place := by
  cases segments with
  | nil =>
    obtain rfl := Except.ok.inj h
    exact hd
  | cons segment segments =>
    obtain ⟨next, hnext, -⟩ := bind_eq_ok_iff.1 h
    exact (step_eq_ok_iff.1 hnext).1

theorem KeepsDirs.walk (hk : tree.KeepsDirs tree') (h : segments.foldlM tree.step place = .ok place')
    (hd : tree.HasDir place') : segments.foldlM tree'.step place = .ok place' := by
  induction segments generalizing place with
  | nil => exact h
  | cons segment segments ih =>
    obtain ⟨next, hnext, hrest⟩ := bind_eq_ok_iff.1 h
    exact bind_eq_ok_iff.2 ⟨next, hk.step hnext (hasDir_of_walk hrest hd), ih hrest⟩

/-- The path names the entry `name` of the directory at `folder`, and no directory is there. -/
structure Names (tree : FileTree) (path : String) (here folder : List String) (name : String) :
    Prop where
  walk : ∃ before, takenSegments path = .ok (before ++ [name]) ∧
    before.foldlM tree.step (startOf here path) = .ok folder
  segment : Path.isIdle name = false ∧ name ≠ Path.upSegment
  parent : tree.HasDir folder
  free : ¬ tree.HasDir (folder ++ [name])

/-- The last segment is empty only behind a slash. -/
theorem getLast?_segmentsOf {s : List Char}
    (h : ((Path.segmentsOf s).1 :: (Path.segmentsOf s).2).getLast? = some []) :
    s = [] ∨ s.getLast? = some '/' := by
  induction s with
  | nil => exact .inl rfl
  | cons c s ih =>
    right
    obtain ⟨first, more, hs⟩ : ∃ first more, Path.segmentsOf s = (first, more) := ⟨_, _, rfl⟩
    rw [hs] at ih
    rw [Path.segmentsOf, hs] at h
    dsimp only at h ih
    by_cases hc : c = '/'
    · rw [if_pos hc, List.getLast?_cons_cons] at h
      obtain rfl | hl := ih h
      · rw [hc]
        rfl
      · rw [List.getLast?_cons, hl]
        rfl
    · rw [if_neg hc] at h
      cases more with
      | nil => exact absurd (Option.some.inj h) (List.cons_ne_nil c first)
      | cons second more =>
        rw [List.getLast?_cons_cons] at h ih
        obtain rfl | hl := ih h
        · cases hs
        · rw [List.getLast?_cons, hl]
          rfl

theorem getLast?_segments (h : (Path.segments path).getLast? = some "") :
    path = "" ∨ Path.endsInSlash path = true := by
  have hlast : ((Path.segmentsOf path.toList).1 :: (Path.segmentsOf path.toList).2).getLast? =
      some [] := by
    rw [Path.segments, List.getLast?_map, Option.map_eq_some_iff] at h
    obtain ⟨s, hs, he⟩ := h
    rw [hs, String.ofList_eq_empty_iff.1 he]
  obtain hnil | hslash := getLast?_segmentsOf hlast
  · exact .inl (String.toList_eq_nil_iff.1 hnil)
  · exact .inr (beq_iff_eq.2 hslash)

/-- Where no slash ends the path there are no empty segments at its end to leave out. -/
theorem segments_eq_of_dropWhile {last : String} {before : List String}
    (h : (Path.segments path).reverse.dropWhile (· = "") = last :: before) (hp : path ≠ "")
    (hs : ¬ Path.endsInSlash path = true) : Path.segments path = before.reverse ++ [last] := by
  have hlast : (Path.segments path).getLast? ≠ some "" := fun hl => (getLast?_segments hl).elim hp hs
  have hreverse : (Path.segments path).reverse = last :: before := by
    cases hr : (Path.segments path).reverse with
    | nil =>
      rw [hr] at h
      cases h
    | cons x xs =>
      have hx : x ≠ "" := by
        rintro rfl
        rw [← List.head?_reverse, hr] at hlast
        exact hlast rfl
      rw [hr, List.dropWhile_cons_of_neg (by simpa using hx)] at h
      exact h
  rw [← List.reverse_reverse (Path.segments path), hreverse, List.reverse_cons]

theorem takenSegments_eq_ok (h : takenSegments path = .ok segments) :
    segments = Path.segments path ∧ path ≠ "" := by
  unfold takenSegments at h
  repeat' split at h
  all_goals simp_all

/-- A walk that ends with a step in place ends at a directory. -/
theorem walk_concat_dot_iff : (segments ++ ["."]).foldlM tree.step place = .ok folder ↔
    segments.foldlM tree.step place = .ok folder ∧ tree.HasDir folder := by
  have hdot : Path.isIdle "." = true := rfl
  rw [List.foldlM_append, bind_eq_ok_iff]
  simp only [List.foldlM_cons, List.foldlM_nil, bind_pure, step_eq_ok_iff, hdot, Bool.true_eq_false,
    true_and, false_and, or_false]
  constructor
  · rintro ⟨_, hwalk, hdir, rfl⟩
    exact ⟨hwalk, hdir⟩
  · rintro ⟨hwalk, hdir⟩
    exact ⟨folder, hwalk, hdir, rfl⟩

/-- Writing to a path goes to the entry that it names. -/
theorem names_of_writable (h : tree.writable path here = .ok place) :
    ∃ folder name, place = folder ++ [name] ∧ tree.Names path here folder name := by
  obtain ⟨segments, hs, h⟩ := bind_eq_ok_iff.1 h
  split at h
  · cases h
  · rename_i last before hlast
    obtain ⟨folder, hfolder, h⟩ := bind_eq_ok_iff.1 h
    obtain ⟨hwalk, hparent⟩ := walk_concat_dot_iff.1 hfolder
    dsimp only at h
    split at h
    · cases h
    · rename_i hplain
      obtain ⟨hdot, hup, hslash⟩ : last ≠ "." ∧ last ≠ Path.upSegment ∧ ¬ Path.endsInSlash path = true :=
        by simpa only [not_or] using hplain
      have hne : last ≠ "" := by
        have hhead := List.head?_dropWhile_not (fun x => decide (x = "")) segments.reverse
        rw [hlast] at hhead
        simpa using hhead
      have hsegment : Path.isIdle last = false ∧ last ≠ Path.upSegment :=
        ⟨Path.isIdle_eq_false_iff.2 ⟨hne, hdot⟩, hup⟩
      have hsegments : takenSegments path = .ok (before.reverse ++ [last]) := by
        obtain ⟨rfl, hpath⟩ := takenSegments_eq_ok hs
        rw [hs, segments_eq_of_dropWhile hlast hpath hslash]
      have hnames (hfree : ¬ tree.HasDir (folder ++ [last])) : tree.Names path here folder last :=
        ⟨⟨_, hsegments, hwalk⟩, hsegment, hparent, hfree⟩
      split at h
      · rename_i place' hstep
        obtain ⟨-, ⟨hidle, -⟩ | ⟨-, hup, -⟩ | ⟨-, -, -, rfl⟩⟩ := step_eq_ok_iff.1 hstep
        · exact absurd hidle (by simp [hsegment.1])
        · exact absurd hup hsegment.2
        · split at h
          · cases h
          · rename_i hfree
            obtain rfl := Except.ok.inj h
            exact ⟨folder, last, rfl, hnames (mt any_isDir_iff.2 hfree)⟩
      · rename_i hstep
        obtain rfl := Except.ok.inj h
        refine ⟨folder, last, rfl, hnames ?_⟩
        rintro ⟨entries, he⟩
        rw [step_entry hparent hsegment.1 hsegment.2 he] at hstep
        cases hstep
      · cases h

theorem Names.getLast?_segments (h : tree.Names path here folder name) :
    (Path.segments path).getLast? = some name := by
  obtain ⟨before, hs, -⟩ := h.walk
  rw [← (takenSegments_eq_ok hs).1, List.getLast?_concat]

/-- The path leads to the entry that it names, as soon as something is there. -/
theorem Names.locate (h : tree.Names path here folder name) (hk : tree.KeepsDirs tree')
    (hn : tree'.get? (folder ++ [name]) = some node) :
    tree'.locate path here = .ok (folder ++ [name]) := by
  obtain ⟨before, hs, hwalk⟩ := h.walk
  have hstep := step_entry (hk _ h.parent) h.segment.1 h.segment.2 hn
  refine bind_eq_ok_iff.2 ⟨_, hs, ?_⟩
  rw [List.foldlM_append, hk.walk hwalk h.parent]
  exact bind_eq_ok_iff.2 ⟨folder, rfl, bind_eq_ok_iff.2 ⟨_, hstep, rfl⟩⟩

theorem Names.of_hasDir_iff (h : tree.Names path here folder name)
    (hd : ∀ place, tree'.HasDir place ↔ tree.HasDir place) : tree'.Names path here folder name := by
  obtain ⟨before, hs, hwalk⟩ := h.walk
  have hk : tree.KeepsDirs tree' := fun place => (hd place).2
  exact ⟨⟨before, hs, hk.walk hwalk h.parent⟩, h.segment, (hd _).2 h.parent, mt (hd _).1 h.free⟩

/-- A file put where a path names it is what the path leads to. -/
theorem Names.locate_put (h : tree.Names path here folder name) (data : FileData) :
    (tree.put (folder ++ [name]) (.file data)).locate path here = .ok (folder ++ [name]) :=
  h.locate (fun _ => (hasDir_put_iff h.parent h.free).2) (get?_put_self h.parent name _)

theorem Names.read_put (h : tree.Names path here folder name) (data : FileData) :
    (tree.put (folder ++ [name]) (.file data)).read path here = .ok data := by
  refine bind_eq_ok_iff.2 ⟨_, h.locate_put data, ?_⟩
  rw [get?_put_self h.parent]
  rfl

/-- A file that is written and taken away again changes no directory. -/
theorem Names.hasDir_put_remove_iff (h : tree.Names path here folder name) (data : FileData) :
    ((tree.put (folder ++ [name]) (.file data)).remove (folder ++ [name])).HasDir place ↔
      tree.HasDir place := by
  rw [hasDir_remove_iff (get?_put_self h.parent name _), hasDir_put_iff h.parent h.free]

end Walk

section Write

variable {tree' : FileTree} {path contents stamp folderPath : String} {here : List String}
  {r : Except Fault Unit}

/-- How a file is replaced through a temporary one: that one is not written, or it is written and taken
away again, and then the file that the path names is written or not. -/
inductive Replaces (tree : FileTree) (folderPath path contents stamp : String) (here : List String) :
    FileTree → Except Fault Unit → Prop
  | refused (fault : Fault) : Replaces tree folderPath path contents stamp here tree (.error fault)
  | undone {written name : String} {folder : List String} (fault : Fault)
      (hwritten : Path.fileName? path = some written)
      (temporary : tree.Names (Path.join folderPath (temporaryName stamp written)) here folder name) :
      Replaces tree folderPath path contents stamp here
        ((tree.put (folder ++ [name]) (.file (.ofText contents))).remove (folder ++ [name]))
        (.error fault)
  | done {written name entry : String} {folder target : List String}
      (hwritten : Path.fileName? path = some written)
      (temporary : tree.Names (Path.join folderPath (temporaryName stamp written)) here folder name)
      (named : ((tree.put (folder ++ [name]) (.file (.ofText contents))).remove
        (folder ++ [name])).Names path here target entry) :
      Replaces tree folderPath path contents stamp here
        (((tree.put (folder ++ [name]) (.file (.ofText contents))).remove (folder ++ [name])).put
          (target ++ [entry]) (.file (.ofText contents))) (.ok ())

/-- A renamed file lies at its new place alone. -/
theorem exists_of_rename {source : String} (hs : tree.locate source here = .ok old)
    (hold : tree.get? old = some (.file data)) (h : tree.rename source path here = .ok tree') :
    ∃ target entry, (tree.remove old).Names path here target entry ∧
      tree' = (tree.remove old).put (target ++ [entry]) (.file data) := by
  obtain ⟨place, hplace, h⟩ := bind_eq_ok_iff.1 h
  obtain rfl : old = place := Except.ok.inj (hs.symm.trans hplace)
  obtain ⟨new, hnew, h⟩ := bind_eq_ok_iff.1 h
  obtain ⟨target, entry, rfl, hnames⟩ := names_of_writable hnew
  rw [hold] at h
  obtain rfl := Except.ok.inj h
  exact ⟨target, entry, hnames.of_hasDir_iff fun place => hasDir_remove_iff hold, rfl⟩

theorem replaces_of_replaceFile
    (h : tree.replaceFile folderPath path contents stamp here = (tree', r)) :
    Replaces tree folderPath path contents stamp here tree' r := by
  unfold replaceFile at h
  split at h
  · obtain ⟨rfl, rfl⟩ := Prod.mk.inj h
    exact .refused _
  · rename_i written hwritten
    dsimp only at h
    split at h
    · obtain ⟨rfl, rfl⟩ := Prod.mk.inj h
      exact .refused _
    · rename_i temporary hwrite
      obtain ⟨place, hplace, rfl⟩ := map_eq_ok_iff.1 (mapError_eq_ok_iff.1 hwrite)
      obtain ⟨folder, name, rfl, hnames⟩ := names_of_writable hplace
      have hlocate := hnames.locate_put (.ofText contents)
      split at h
      · obtain ⟨rfl, rfl⟩ := Prod.mk.inj h
        rw [delete, hlocate]
        exact .undone _ hwritten hnames
      · rename_i renamed hrename
        obtain ⟨rfl, rfl⟩ := Prod.mk.inj h
        obtain ⟨target, entry, hnamed, rfl⟩ := exists_of_rename hlocate
          (get?_put_self hnames.parent name _) (mapError_eq_ok_iff.1 hrename)
        exact .done hwritten hnames hnamed

/-- The tree in which a file is replaced: the directory of the path is made if nothing has its name. -/
def withFolder (tree : FileTree) (path : String) (here : List String) : FileTree :=
  if tree.pathExists (folderOf path) here then tree else (tree.createDirs (folderOf path) here).1

theorem replaces_of_writeAtomic (h : tree.writeAtomic path contents stamp here = (tree', r)) :
    Replaces (tree.withFolder path here) (folderOf path) path contents stamp here tree' r := by
  unfold writeAtomic at h
  dsimp only at h
  unfold withFolder
  split at h
  · rename_i hfolder
    rw [if_pos hfolder]
    exact replaces_of_replaceFile h
  · rename_i hfolder
    rw [if_neg hfolder]
    split at h
    · rename_i made e hmade
      obtain ⟨rfl, rfl⟩ := Prod.mk.inj h
      rw [hmade]
      exact .refused _
    · rename_i made hmade
      rw [hmade]
      exact replaces_of_replaceFile h

/-- After a write that succeeds the path is read as what was written. -/
theorem read_writeAtomic (h : tree.writeAtomic path contents stamp here = (tree', .ok ())) :
    tree'.read path here = .ok (.ofText contents) := by
  cases replaces_of_writeAtomic h with
  | done _ _ named => exact named.read_put _

end Write

end Places

end ApiSurface.FileTree
