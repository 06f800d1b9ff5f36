import ApiSurface.FileTree.Sources
import ApiSurface.Proofs.FileTree.Frame
import Mathlib.Data.List.Nodup

namespace ApiSurface

namespace FileTree

/-- A name that a directory can hold: a segment that names a step down. -/
def isEntryName (name : String) : Bool :=
  !Path.isIdle name && name != Path.upSegment && !name.toList.contains '/'

mutual

/-- In each directory the entries have names of their own. -/
def isWellNamed : FileTree → Bool
  | .file _ => true
  | .dir entries => areWellNamed entries
termination_by structural tree => tree

def areWellNamed : List (String × FileTree) → Bool
  | [] => true
  | (name, node) :: rest =>
    isEntryName name && rest.all (·.1 != name) && node.isWellNamed && areWellNamed rest
termination_by structural entries => entries

end

section Names

variable {tree node child : FileTree} {entries : List (String × FileTree)} {name : String}
  {place : List String}

theorem isEntryName_iff : isEntryName name = true ↔
    Path.isIdle name = false ∧ name ≠ Path.upSegment ∧ '/' ∉ name.toList := by
  simp [isEntryName, and_assoc]

theorem areWellNamed_cons_iff : areWellNamed ((name, node) :: entries) = true ↔
    isEntryName name = true ∧ (∀ e ∈ entries, e.1 ≠ name) ∧ node.isWellNamed = true ∧
      areWellNamed entries = true := by
  simp [areWellNamed, and_assoc]

/-- Where no name comes twice, the entries are what is found under their names. -/
theorem mem_iff_lookup (h : areWellNamed entries = true) :
    (name, node) ∈ entries ↔ entries.lookup name = some node := by
  induction entries with
  | nil => simp
  | cons e entries ih =>
    obtain ⟨n, first⟩ := e
    obtain ⟨-, hnew, -, hrest⟩ := areWellNamed_cons_iff.1 h
    rw [lookup_cons_if, List.mem_cons, ih hrest]
    by_cases hn : name = n
    · subst hn
      have hnone : entries.lookup name ≠ some node := fun hl => hnew _ ((ih hrest).2 hl) rfl
      simp [hnone, eq_comm]
    · simp [hn]

theorem wellNamed_of_mem (h : areWellNamed entries = true) (hm : (name, node) ∈ entries) :
    isEntryName name = true ∧ node.isWellNamed = true := by
  induction entries with
  | nil => cases hm
  | cons e entries ih =>
    obtain ⟨n, first⟩ := e
    obtain ⟨hn, -, hfirst, hrest⟩ := areWellNamed_cons_iff.1 h
    rcases List.mem_cons.1 hm with he | hm
    · obtain ⟨rfl, rfl⟩ := Prod.mk.inj he
      exact ⟨hn, hfirst⟩
    · exact ih hrest hm

theorem wellNamed_of_child (h : tree.isWellNamed = true) (hc : tree.child? name = some child) :
    isEntryName name = true ∧ child.isWellNamed = true := by
  obtain ⟨entries, rfl, hl⟩ := child?_eq_some_iff.1 hc
  have hentries : areWellNamed entries = true := h
  exact wellNamed_of_mem hentries ((mem_iff_lookup hentries).2 hl)

/-- What is found in a well-named tree is well-named, and so are the names on the way. -/
theorem wellNamed_of_get? (h : tree.isWellNamed = true) (hg : tree.get? place = some node) :
    node.isWellNamed = true ∧ ∀ name ∈ place, isEntryName name = true := by
  induction place generalizing tree with
  | nil =>
    obtain rfl := Option.some.inj hg
    exact ⟨h, List.forall_mem_nil _⟩
  | cons name place ih =>
    obtain ⟨child, hc, hg⟩ := Option.bind_eq_some_iff.1 hg
    obtain ⟨hname, hchild⟩ := wellNamed_of_child h hc
    obtain ⟨hnode, hplace⟩ := ih hchild hg
    exact ⟨hnode, List.forall_mem_cons.2 ⟨hname, hplace⟩⟩

end Names

/-- What is at a place below a directory, where no directory on the way has an excluded name, nor what
is there itself if it is a directory. -/
structure IsMet (excluded : List String) (dir : FileTree) (place : List String) (node : FileTree) :
    Prop where
  below : place ≠ []
  there : dir.get? place = some node
  entered : ∀ name ∈ place.dropLast, name ∉ excluded
  kept : node.isDir = true → ∀ name ∈ place, name ∉ excluded

section Walk

variable {excluded : List String} {tree node child : FileTree} {name : String}
  {entries : List (String × FileTree)} {place more : List String}

theorem mem_map_below_iff {nodes : List (List String × FileTree)} :
    (place, node) ∈ nodes.map (Prod.map (name :: ·) id) ↔
      ∃ more, place = name :: more ∧ (more, node) ∈ nodes := by
  constructor
  · intro h
    obtain ⟨⟨more, n⟩, hm, he⟩ := List.mem_map.1 h
    obtain ⟨rfl, rfl⟩ := Prod.mk.inj he
    exact ⟨more, rfl, hm⟩
  · rintro ⟨more, rfl, hm⟩
    exact List.mem_map.2 ⟨_, hm, rfl⟩

/-- What is met below a directory is one of its entries, unless it is pruned, or is met below it. -/
theorem mem_entryNodes_iff : (place, node) ∈ entryNodes excluded entries ↔
    ∃ name child, (name, child) ∈ entries ∧ (child.isDir = true → name ∉ excluded) ∧
      (place = [name] ∧ node = child ∨
        ∃ more, place = name :: more ∧ (more, node) ∈ child.nodesBelow excluded) := by
  induction entries with
  | nil => simp [entryNodes]
  | cons e entries ih =>
    obtain ⟨name, child⟩ := e
    have hfirst : (place, node) ∈ (if child.isDir && excluded.contains name then []
          else ([name], child) :: (child.nodesBelow excluded).map (Prod.map (name :: ·) id)) ↔
        (child.isDir = true → name ∉ excluded) ∧ (place = [name] ∧ node = child ∨
          ∃ more, place = name :: more ∧ (more, node) ∈ child.nodesBelow excluded) := by
      by_cases hpruned : child.isDir = true ∧ name ∈ excluded
      · simp [hpruned.1, hpruned.2]
      · have hkept : child.isDir = true → name ∉ excluded := fun hd hn => hpruned ⟨hd, hn⟩
        rw [if_neg (by simpa using hpruned), List.mem_cons, mem_map_below_iff, Prod.mk.injEq,
          and_iff_right hkept]
    rw [entryNodes, List.mem_append, hfirst, ih]
    simp only [List.mem_cons, Prod.mk.injEq]
    constructor
    · rintro (h | ⟨n, c, hm, h⟩)
      · exact ⟨name, child, .inl ⟨rfl, rfl⟩, h⟩
      · exact ⟨n, c, .inr hm, h⟩
    · rintro ⟨n, c, ⟨rfl, rfl⟩ | hm, h⟩
      · exact .inl h
      · exact .inr ⟨n, c, hm, h⟩

/-- The walk meets exactly what no excluded directory holds. -/
theorem mem_nodesBelow_iff (h : tree.isWellNamed = true) :
    (place, node) ∈ tree.nodesBelow excluded ↔ tree.IsMet excluded place node := by
  induction place generalizing tree with
  | nil =>
    have hnil : ¬ tree.IsMet excluded [] node := fun hm => hm.below rfl
    cases tree <;> simp [nodesBelow, mem_entryNodes_iff, hnil]
  | cons name more ih =>
    cases tree with
    | file data =>
      have hfile : ¬ (file data).IsMet excluded (name :: more) node := fun hm => by
        simpa [get?, child?] using hm.there
      simp [nodesBelow, hfile]
    | dir entries =>
      have hentries : areWellNamed entries = true := h
      rw [nodesBelow, mem_entryNodes_iff]
      constructor
      · rintro ⟨n, child, hmem, hkept, hbelow⟩
        have hl := (mem_iff_lookup hentries).1 hmem
        have hget (place : List String) : (dir entries).get? (n :: place) = child.get? place := by
          rw [get?, child?, hl, Option.bind_some]
        obtain ⟨he, rfl⟩ | ⟨place, he, hm⟩ := hbelow
        · obtain ⟨rfl, rfl⟩ := List.cons.inj he
          exact ⟨List.cons_ne_nil _ _, hget [], by simp, by simpa using hkept⟩
        · obtain ⟨rfl, rfl⟩ := List.cons.inj he
          have hmet := (ih (wellNamed_of_mem hentries hmem).2).1 hm
          obtain ⟨second, place, rfl⟩ := List.exists_cons_of_ne_nil hmet.below
          obtain ⟨grandchild, hgrand, -⟩ := Option.bind_eq_some_iff.1 hmet.there
          obtain ⟨inner, rfl, -⟩ := child?_eq_some_iff.1 hgrand
          have hname := hkept rfl
          refine ⟨List.cons_ne_nil _ _, (hget _).trans hmet.there, ?_, fun hd => ?_⟩
          · exact List.forall_mem_cons.2 ⟨hname, hmet.entered⟩
          · exact List.forall_mem_cons.2 ⟨hname, hmet.kept hd⟩
      · intro hmet
        obtain ⟨child, hc, hget⟩ := Option.bind_eq_some_iff.1 hmet.there
        obtain ⟨entries', he, hl⟩ := child?_eq_some_iff.1 hc
        obtain rfl := FileTree.dir.inj he
        have hmem := (mem_iff_lookup hentries).2 hl
        cases more with
        | nil =>
          obtain rfl := Option.some.inj hget
          exact ⟨name, child, hmem, fun hd => hmet.kept hd name List.mem_cons_self,
            .inl ⟨rfl, rfl⟩⟩
        | cons second more =>
          have hentered := List.forall_mem_cons.1 hmet.entered
          refine ⟨name, child, hmem, fun _ => hentered.1, .inr ⟨_, rfl, ?_⟩⟩
          refine (ih (wellNamed_of_mem hentries hmem).2).2
            ⟨List.cons_ne_nil _ _, hget, hentered.2, fun hd => ?_⟩
          exact (List.forall_mem_cons.1 (hmet.kept hd)).2

/-- The walk meets nothing twice. -/
theorem nodup_nodesBelow (h : tree.isWellNamed = true) :
    ((tree.nodesBelow excluded).map Prod.fst).Nodup := by
  induction tree using nodesBelow.induct
    (motive_2 := fun entries => areWellNamed entries = true →
      ((entryNodes excluded entries).map Prod.fst).Nodup) with
  | case1 data => exact List.nodup_nil
  | case2 entries ih => exact ih h
  | case3 => exact List.nodup_nil
  | case4 name node rest ihNode ihRest h =>
    obtain ⟨-, hnew, hnode, hrest⟩ := areWellNamed_cons_iff.1 h
    rw [entryNodes, List.map_append, List.nodup_append]
    refine ⟨?_, ihRest hrest, ?_⟩
    · split
      · exact List.nodup_nil
      · have hfst : Prod.fst ∘ Prod.map (name :: ·) id = (name :: ·) ∘ @Prod.fst _ FileTree := rfl
        rw [List.map_cons, List.map_map, hfst, ← List.map_map, List.nodup_cons]
        constructor
        · intro hm
          obtain ⟨place, hplace, he⟩ := List.mem_map.1 hm
          obtain ⟨⟨place, child⟩, hchild, rfl⟩ := List.mem_map.1 hplace
          exact ((mem_nodesBelow_iff hnode).1 hchild).below (List.cons.inj he).2
        · exact (ihNode hnode).map fun a b he => (List.cons.inj he).2
    -- Places of different entries begin with different names.
    · intro a ha b hb hab
      obtain ⟨⟨place, first⟩, hfirst, rfl⟩ := List.mem_map.1 ha
      obtain ⟨⟨place', second⟩, hsecond, rfl⟩ := List.mem_map.1 hb
      obtain ⟨n, child, hmem, -, hplace⟩ := mem_entryNodes_iff.1 hsecond
      have hhead : place'.head? = some n := by
        obtain ⟨rfl, -⟩ | ⟨more, rfl, -⟩ := hplace <;> rfl
      have hhead' : place.head? = some name := by
        split at hfirst
        · cases hfirst
        · obtain he | hm := List.mem_cons.1 hfirst
          · obtain ⟨rfl, -⟩ := Prod.mk.inj he
            rfl
          · obtain ⟨more, rfl, -⟩ := mem_map_below_iff.1 hm
            rfl
      rw [show place = place' from hab, hhead] at hhead'
      exact hnew _ hmem (Option.some.inj hhead')

end Walk

section Order

theorem placeLe_iff {p q : List String} : placeLe p q = true ↔ ¬ q < p := by
  rw [placeLe, Bool.not_eq_true', decide_eq_false_iff_not]

/-- Places that come once are put into strict order. -/
theorem sorted_mergeSort {places : List (List String)} (h : places.Nodup) :
    (places.mergeSort placeLe).Pairwise (· < ·) := by
  have htrans : ∀ p q r, placeLe p q = true → placeLe q r = true → placeLe p r = true := by
    intro p q r hpq hqr
    rw [placeLe_iff] at hpq hqr ⊢
    exact List.not_lt.2 (List.le_trans (List.not_lt.1 hpq) (List.not_lt.1 hqr))
  have htotal : ∀ p q, (placeLe p q || placeLe q p) = true := by
    intro p q
    rw [Bool.or_eq_true, placeLe_iff, placeLe_iff]
    exact (List.le_total p q).imp List.not_lt.2 List.not_lt.2
  have hle := List.pairwise_mergeSort htrans htotal places
  have hne : (places.mergeSort placeLe).Nodup := (List.mergeSort_perm places placeLe).nodup_iff.2 h
  refine (hle.and hne).imp fun ⟨hpq, hd⟩ => ?_
  exact (List.le_iff_lt_or_eq.1 (List.not_lt.1 (placeLe_iff.1 hpq))).resolve_right hd

/-- What is sorted does not depend on the order it came in. -/
theorem mergeSort_congr {places others : List (List String)} (h : places.Perm others)
    (hn : places.Nodup) : places.mergeSort placeLe = others.mergeSort placeLe := by
  have hperm : (places.mergeSort placeLe).Perm (others.mergeSort placeLe) :=
    (List.mergeSort_perm places placeLe).trans (h.trans (List.mergeSort_perm others placeLe).symm)
  refine hperm.eq_of_pairwise ?_ (sorted_mergeSort hn) (sorted_mergeSort (h.nodup_iff.1 hn))
  intro p q _ _ hpq hqp
  exact absurd (List.lt_trans hpq hqp) (List.lt_irrefl p)

end Order

/-- A regular file at a place below a directory, its name ending in `.rs` with something in front, where
no directory between the two has a name that is left out always or on request. -/
structure IsSourceBelow (excluded : List String) (dir : FileTree) (place : List String) : Prop where
  file : ∃ data, dir.HasFile place data
  extension : ∃ folder stem, stem ≠ "" ∧ place = folder ++ [stem ++ ".rs"]
  entered : ∀ name ∈ place.dropLast,
    name ∉ ["target", ".git", "node_modules", ".cargo"] ∧ name ∉ excluded

/-- What a walk delivers that visits, each once, all that no directory left out holds. -/
structure IsWalk (excluded : List String) (dir : FileTree) (walk : List (List String × FileTree)) :
    Prop where
  once : (walk.map Prod.fst).Nodup
  visits : ∀ place node, (place, node) ∈ walk ↔
    dir.IsMet (["target", ".git", "node_modules", ".cargo"] ++ excluded) place node

section Found

variable {excluded : List String} {tree dir node : FileTree} {walk other : List (List String × FileTree)}
  {place here : List String} {root name : String}

theorem isWalk_nodesBelow (h : dir.isWellNamed = true) (excluded : List String) :
    dir.IsWalk excluded (dir.nodesBelow (alwaysExcluded ++ excluded)) where
  once := nodup_nodesBelow h
  visits _ _ := mem_nodesBelow_iff h

theorem isSourceName_iff : isSourceName name = true ↔ ∃ stem, stem ≠ "" ∧ name = stem ++ ".rs" := by
  have hsuffix : isSourceName name = true ↔
      3 < name.toList.length ∧ ['.', 'r', 's'] <:+ name.toList := by
    simp [isSourceName, Path.hasExtension, ← List.reverse_prefix]
  rw [hsuffix]
  constructor
  · rintro ⟨hlength, stem, hstem⟩
    refine ⟨String.ofList stem, ?_, String.toList_injective ?_⟩
    · rintro hnil
      rw [← hstem, String.ofList_eq_empty_iff.1 hnil] at hlength
      exact absurd hlength (by decide)
    · rw [String.toList_append, String.toList_ofList]
      exact hstem.symm
  · rintro ⟨stem, hne, rfl⟩
    rw [String.toList_append]
    refine ⟨?_, stem.toList, rfl⟩
    have hpos : 0 < stem.toList.length :=
      List.length_pos_iff.2 (mt String.toList_eq_nil_iff.1 hne)
    rw [List.length_append]
    exact Nat.lt_add_of_pos_left hpos

/-- The places that are taken from a walk are those of the source files. -/
theorem mem_sourcePlaces_iff (h : dir.IsWalk excluded walk) :
    place ∈ sourcePlaces walk ↔ dir.IsSourceBelow excluded place := by
  have hname : ∀ folder name, (folder ++ [name]).getLast?.any isSourceName = true ↔
      ∃ stem, stem ≠ "" ∧ name = stem ++ ".rs" := by
    intro folder name
    rw [List.getLast?_concat, Option.any_some, isSourceName_iff]
  rw [sourcePlaces, List.mem_mergeSort, List.mem_map]
  constructor
  · rintro ⟨⟨place, node⟩, he, rfl⟩
    obtain ⟨hmem, hsource⟩ := List.mem_filter.1 he
    obtain ⟨hfile, hlast⟩ := Bool.and_eq_true_iff.1 hsource
    have hmet := (h.visits place node).1 hmem
    obtain ⟨folder, name, rfl⟩ : ∃ folder name, place = folder ++ [name] :=
      ⟨_, _, (List.dropLast_concat_getLast hmet.below).symm⟩
    obtain ⟨stem, hne, rfl⟩ := (hname folder name).1 hlast
    refine ⟨?_, ⟨folder, stem, hne, rfl⟩, fun name hn => ?_⟩
    · cases node with
      | file data => exact ⟨data, hmet.there⟩
      | dir entries => cases hfile
    · have hout := hmet.entered name hn
      rwa [List.mem_append, not_or] at hout
  · rintro ⟨⟨data, hdata⟩, ⟨folder, stem, hne, rfl⟩, hentered⟩
    refine ⟨(_, .file data), List.mem_filter.2 ⟨(h.visits _ _).2 ⟨by simp, hdata, ?_, ?_⟩, ?_⟩, rfl⟩
    · intro name hn
      rw [List.mem_append, not_or]
      exact hentered name hn
    · rintro ⟨⟩
    · exact (hname folder _).2 ⟨stem, hne, rfl⟩

theorem sorted_sourcePlaces (hn : (walk.map Prod.fst).Nodup) :
    (sourcePlaces walk).Pairwise (· < ·) :=
  sorted_mergeSort ((List.filter_sublist.map _).nodup hn)

/-- The order in which a walk meets what is there does not matter. -/
theorem IsWalk.sourcesAmong_eq (h : dir.IsWalk excluded walk) (ho : dir.IsWalk excluded other) :
    sourcesAmong root walk = sourcesAmong root other := by
  have hperm : walk.Perm other := by
    refine (List.perm_ext_iff_of_nodup (h.once.of_map _) (ho.once.of_map _)).2 ?_
    rintro ⟨place, node⟩
    rw [h.visits, ho.visits]
  have hplaces : sourcePlaces walk = sourcePlaces other :=
    mergeSort_congr ((hperm.filter _).map _) ((List.filter_sublist.map _).nodup h.once)
  rw [sourcesAmong, sourcesAmong, hperm.all_eq, hplaces]

/-- A path below a root has the steps of the place behind those of the root. -/
theorem steps_pathBelow (root : String) (hne : place ≠ [])
    (h : ∀ name ∈ place, isEntryName name = true) :
    Path.steps (pathBelow root place) = Path.steps root ++ place := by
  have hslash : ∀ name ∈ place, '/' ∉ name.toList := fun name hn => (isEntryName_iff.1 (h name hn)).2.2
  have hidle : ∀ name ∈ place, (!Path.isIdle name) = true := fun name hn => by
    rw [(isEntryName_iff.1 (h name hn)).1]
    rfl
  have hrelative : Path.isAbsolute ("/".intercalate place) = false := by
    obtain ⟨name, more, rfl⟩ := List.exists_cons_of_ne_nil hne
    obtain ⟨hname, -, hfirst⟩ := isEntryName_iff.1 (h name List.mem_cons_self)
    have hhead : ("/".intercalate (name :: more)).toList.head? = name.toList.head? := by
      have hchars : name.toList ≠ [] :=
        mt String.toList_eq_nil_iff.1 (Path.isIdle_eq_false_iff.1 hname).1
      cases more with
      | nil => rw [String.intercalate_singleton]
      | cons second more =>
        obtain ⟨c, rest, hc⟩ := List.exists_cons_of_ne_nil hchars
        rw [String.intercalate_cons_cons, String.toList_append, String.toList_append, hc]
        rfl
    rw [Path.isAbsolute, hhead, beq_eq_false_iff_ne]
    exact fun hslash => hfirst (List.mem_of_mem_head? hslash)
  have hsteps : Path.steps ("/".intercalate place) = place := by
    rw [Path.steps, Path.segments_intercalate hne hslash, List.filter_eq_self.2 hidle]
  rw [pathBelow, Path.steps_join root hrelative, hsteps]

theorem sourcePaths_of_find? (hroot : tree.find? root here = some dir) (hdir : dir.isDir = true)
    (excluded : List String) : tree.sourcePaths excluded root here =
      sourcesAmong root (dir.nodesBelow (alwaysExcluded ++ excluded)) := by
  rw [sourcePaths, hroot]
  cases dir with
  | file data => cases hdir
  | dir entries => rfl

theorem wellNamed_of_find? (hw : tree.isWellNamed = true) (hroot : tree.find? root here = some dir) :
    dir.isWellNamed = true := by
  unfold find? at hroot
  split at hroot
  · exact (wellNamed_of_get? hw hroot).1
  · cases hroot

/-- Nothing is found if a directory is met whose path is too long. -/
theorem sourcesAmong_eq_none (h : dir.IsWalk excluded walk) {entries : List (String × FileTree)}
    (hm : dir.IsMet (["target", ".git", "node_modules", ".cargo"] ++ excluded) place (.dir entries))
    (hlong : 4095 < (pathBelow root place).utf8ByteSize) : sourcesAmong root walk = none := by
  refine if_neg fun hall => ?_
  have hfits := List.all_eq_true.1 hall _ ((h.visits place _).2 hm)
  have hle : (pathBelow root place).utf8ByteSize ≤ 4095 := Path.isUsable_iff.1 hfits
  omega

theorem sourcesAmong_eq_some (h : dir.IsWalk excluded walk)
    (hfits : ∀ place entries,
      dir.IsMet (["target", ".git", "node_modules", ".cargo"] ++ excluded) place (.dir entries) →
        (pathBelow root place).utf8ByteSize ≤ 4095) :
    sourcesAmong root walk = some (((sourcePlaces walk).map (pathBelow root)).filter Path.isUsable) := by
  refine if_pos (List.all_eq_true.2 ?_)
  rintro ⟨place, node⟩ he
  cases node with
  | file data => rfl
  | dir entries => exact Path.isUsable_iff.2 (hfits _ _ ((h.visits _ _).1 he))

/-- From a directory the source files below it are found, wherever its path is seen from and whatever the
order of the walk: exactly those whose path is not too long to be looked at, each once, in the order of
their steps. A directory with too long a path that is not left out ends the search. -/
theorem sourcePaths_exact (hw : tree.isWellNamed = true) (hroot : tree.find? root here = some dir)
    (hdir : dir.isDir = true) (excluded : List String) :
    ((∃ walk, dir.IsWalk excluded walk) ∧
      ∀ walk, dir.IsWalk excluded walk →
        sourcesAmong root walk = tree.sourcePaths excluded root here) ∧
    ((∃ place entries, dir.IsMet (["target", ".git", "node_modules", ".cargo"] ++ excluded) place
          (.dir entries) ∧ 4095 < (pathBelow root place).utf8ByteSize) →
      tree.sourcePaths excluded root here = none) ∧
    ((∀ place entries, dir.IsMet (["target", ".git", "node_modules", ".cargo"] ++ excluded) place
          (.dir entries) → (pathBelow root place).utf8ByteSize ≤ 4095) →
      ∃ paths, tree.sourcePaths excluded root here = some paths ∧
        paths.Pairwise (fun p q => Path.steps p < Path.steps q) ∧
        ∀ path, path ∈ paths ↔ ∃ place, dir.IsSourceBelow excluded place ∧
          path = pathBelow root place ∧ path.utf8ByteSize ≤ 4095) := by
  have hdirw := wellNamed_of_find? hw hroot
  have hwalk := isWalk_nodesBelow hdirw excluded
  have hpaths := sourcePaths_of_find? hroot hdir excluded
  refine ⟨⟨⟨_, hwalk⟩, fun walk h => ?_⟩, ?_, fun hfits => ?_⟩
  · rw [hpaths, h.sourcesAmong_eq hwalk]
  · rintro ⟨place, entries, hm, hlong⟩
    rw [hpaths, sourcesAmong_eq_none hwalk hm hlong]
  · rw [hpaths, sourcesAmong_eq_some hwalk hfits]
    refine ⟨_, rfl, ?_, fun path => ?_⟩
    · have hsteps : ∀ place ∈ sourcePlaces (dir.nodesBelow (alwaysExcluded ++ excluded)),
          Path.steps (pathBelow root place) = Path.steps root ++ place := by
        intro place hplace
        obtain ⟨⟨data, hdata⟩, ⟨folder, stem, -, rfl⟩, -⟩ := (mem_sourcePlaces_iff hwalk).1 hplace
        exact steps_pathBelow root (by simp) (wellNamed_of_get? hdirw hdata).2
      refine List.Pairwise.filter _ (List.pairwise_map.2 ?_)
      refine (sorted_sourcePlaces hwalk.once).imp_of_mem fun hp hq hlt => ?_
      rw [hsteps _ hp, hsteps _ hq]
      exact List.append_left_lt hlt
    · rw [List.mem_filter, List.mem_map, Path.isUsable_iff]
      constructor
      · rintro ⟨⟨place, hplace, rfl⟩, hle⟩
        exact ⟨place, (mem_sourcePlaces_iff hwalk).1 hplace, rfl, hle⟩
      · rintro ⟨place, hplace, rfl, hle⟩
        exact ⟨⟨place, (mem_sourcePlaces_iff hwalk).2 hplace, rfl⟩, hle⟩

end Found

theorem sourcePaths_exact_pruned :
    let crate := dir [(".rs", .file (.ofText "")), ("target.rs", .file (.ofText "")),
      ("target", dir [("b.rs", .file (.ofText ""))]),
      ("src", dir [("a-b", dir [("x.rs", .file (.ofText ""))]), ("a", dir [("x.rs", .file (.ofText ""))]),
        ("gen", dir [("x.rs", .file (.ofText ""))])])]
    let tree := dir [("gen", crate), ("w", dir [])]
    tree.isWellNamed = true ∧ tree.find? "../gen" ["w"] = some crate ∧ crate.isDir = true ∧
      (∀ place entries, crate.IsMet (["target", ".git", "node_modules", ".cargo"] ++ ["gen"]) place
        (.dir entries) → (pathBelow "../gen" place).utf8ByteSize ≤ 4095) ∧
      ∃ paths, tree.sourcePaths ["gen"] "../gen" ["w"] = some paths ∧
        paths.Pairwise (fun p q => Path.steps p < Path.steps q) ∧
        ∀ path, path ∈ paths ↔ ∃ place, crate.IsSourceBelow ["gen"] place ∧
          path = pathBelow "../gen" place ∧ path.utf8ByteSize ≤ 4095 := by
  intro crate tree
  have hw : tree.isWellNamed = true := by decide +kernel
  have hroot : tree.find? "../gen" ["w"] = some crate := by
    have hplace : tree.locate "../gen" ["w"] = .ok ["gen"] := by decide +kernel
    rw [find?, hplace]
    rfl
  have hcrate : crate.isWellNamed = true := wellNamed_of_find? hw hroot
  have hshort : ∀ e ∈ crate.nodesBelow (["target", ".git", "node_modules", ".cargo"] ++ ["gen"]),
      (pathBelow "../gen" e.1).utf8ByteSize ≤ 4095 := by decide +kernel
  have hfits : ∀ place entries,
      crate.IsMet (["target", ".git", "node_modules", ".cargo"] ++ ["gen"]) place (.dir entries) →
        (pathBelow "../gen" place).utf8ByteSize ≤ 4095 :=
    fun place entries hm => hshort (place, .dir entries) ((mem_nodesBelow_iff hcrate).2 hm)
  exact ⟨hw, hroot, rfl, hfits, (sourcePaths_exact hw hroot rfl ["gen"]).2.2 hfits⟩

section TooLong

/-- The path to the entry `s` that stays in place so many times before. -/
def dottedPath : Nat → String
  | 0 => "s"
  | count + 1 => "." ++ "/" ++ dottedPath count

theorem toList_dottedPath (count : Nat) :
    (dottedPath count).toList = (List.replicate count ['.', '/']).flatten ++ ['s'] := by
  induction count with
  | zero => rfl
  | succ count ih =>
    rw [dottedPath, String.toList_append, ih, List.replicate_succ, List.flatten_cons, List.append_assoc]
    rfl

theorem segments_dottedPath (count : Nat) :
    Path.segments (dottedPath count) = List.replicate count "." ++ ["s"] := by
  induction count with
  | zero => rfl
  | succ count ih =>
    rw [dottedPath, Path.segments_slash, ih]
    rfl

theorem utf8ByteSize_dottedPath (count : Nat) : (dottedPath count).utf8ByteSize = 2 * count + 1 := by
  induction count with
  | zero => rfl
  | succ count ih =>
    have hdot : ("." ++ "/").utf8ByteSize = 2 := rfl
    rw [dottedPath, String.utf8ByteSize_append, ih, hdot]
    omega

theorem locate_dottedPath {count : Nat} {node : FileTree} (h : count ≤ 2047) :
    (dir [("s", node)]).locate (dottedPath count) [] = .ok ["s"] := by
  have hsegments : takenSegments (dottedPath count) = .ok (List.replicate count "." ++ ["s"]) := by
    have hnul : Path.hasNul (dottedPath count) = false := by
      rw [Path.hasNul, toList_dottedPath]
      simp
    have husable : Path.isUsable (dottedPath count) = true := by
      rw [Path.isUsable_iff, utf8ByteSize_dottedPath]
      omega
    have hne : dottedPath count ≠ "" := by
      rintro he
      have hsize := utf8ByteSize_dottedPath count
      rw [he] at hsize
      cases hsize
    rw [takenSegments, hnul, husable, if_neg hne, segments_dottedPath]
    rfl
  have hidle : ∀ segment ∈ List.replicate count ".", Path.isIdle segment = true := by
    intro segment hs
    rw [List.eq_of_mem_replicate hs]
    rfl
  have hstart : startOf [] (dottedPath count) = [] := by
    rw [startOf, ite_self]
  refine bind_eq_ok_iff.2 ⟨_, hsegments, ?_⟩
  rw [hstart, List.foldlM_append]
  exact bind_eq_ok_iff.2 ⟨[], walk_idle (hasDir_nil_iff.2 ⟨_, rfl⟩) hidle, rfl⟩

end TooLong

/-- A source file is passed over where its path is too long, though the directory that holds it is
entered. -/
theorem exists_source_not_mem_sourcePaths :
    let src := dir [("abcd.rs", .file (.ofText "")), ("d.rs", .file (.ofText ""))]
    let tree := dir [("s", src)]
    tree.isWellNamed = true ∧ tree.find? (dottedPath 2044) [] = some src ∧ src.isDir = true ∧
      (dottedPath 2044).utf8ByteSize ≤ 4095 ∧ src.IsSourceBelow [] ["abcd.rs"] ∧
      ∃ paths, tree.sourcePaths [] (dottedPath 2044) [] = some paths ∧
        pathBelow (dottedPath 2044) ["abcd.rs"] ∉ paths := by
  intro src tree
  have hw : tree.isWellNamed = true := by decide +kernel
  have hroot : tree.find? (dottedPath 2044) [] = some src := by
    have hplace : tree.locate (dottedPath 2044) [] = .ok ["s"] := locate_dottedPath (by decide)
    rw [find?, hplace]
    rfl
  have hwalk := isWalk_nodesBelow (wellNamed_of_find? hw hroot) []
  have hfiles : ∀ e ∈ src.nodesBelow (alwaysExcluded ++ []), e.2.isFile = true := by decide +kernel
  have hfits : ∀ place entries, src.IsMet (["target", ".git", "node_modules", ".cargo"] ++ []) place
      (.dir entries) → (pathBelow (dottedPath 2044) place).utf8ByteSize ≤ 4095 := by
    intro place entries hm
    exact absurd (hfiles (place, .dir entries) ((hwalk.visits _ _).2 hm)) Bool.false_ne_true
  have hlong : 4095 < (pathBelow (dottedPath 2044) ["abcd.rs"]).utf8ByteSize := by
    have hrelative : Path.isAbsolute ("/".intercalate ["abcd.rs"]) = false := rfl
    have hjoin := Path.utf8ByteSize_join_le (dottedPath 2044) hrelative
    have hname : ("/".intercalate ["abcd.rs"]).utf8ByteSize = 7 := rfl
    rw [utf8ByteSize_dottedPath, hname] at hjoin
    rw [pathBelow]
    omega
  have hsource : src.IsSourceBelow [] ["abcd.rs"] :=
    ⟨⟨_, rfl⟩, ⟨[], "abcd", by decide, rfl⟩, List.forall_mem_nil _⟩
  refine ⟨hw, hroot, rfl, ?_, hsource, _, (sourcePaths_of_find? hroot rfl []).trans
    (sourcesAmong_eq_some hwalk hfits), ?_⟩
  · rw [utf8ByteSize_dottedPath]
    decide
  · rw [List.mem_filter, Path.isUsable_iff]
    exact fun h => absurd h.2 (Nat.not_le.2 hlong)

end FileTree

end ApiSurface
