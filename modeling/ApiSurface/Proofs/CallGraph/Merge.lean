import ApiSurface.Artifact.Store
import ApiSurface.Proofs.CallGraph.Reach
import ApiSurface.Reader

namespace ApiSurface

namespace NameSet

variable {s t : NameSet} {name : String}

theorem mem_toList_union (s t : NameSet) : name ∈ (s.union t).toList ↔ name ∈ s.toList ∨ name ∈ t.toList := by
  rw [union, mem_toList_foldl_add, or_comm]

/-- A set is its names. -/
theorem ext_toList (h : ∀ name, name ∈ s.toList ↔ name ∈ t.toList) : s = t := by
  apply NameMap.ext_get?
  intro name
  have hsome : (s.get? name).isSome ↔ (t.get? name).isSome := by
    rw [s.isSome_get?_iff, t.isSome_get?_iff]
    exact h name
  cases hs : s.get? name <;> cases ht : t.get? name <;> simp_all

end NameSet

namespace CallGraph

variable {g h k : CallGraph} {caller callee start : String}

/-- The callees of each entry are united with those that its method has already. Names in strict order
come once, so no entry meets what another one has put there. -/
theorem get?_foldl_union {entries : List (String × NameSet)}
    (he : entries.Pairwise fun a b => a.1 < b.1) (calls : NameMap NameSet) :
    (entries.foldl (fun calls (method, callees) =>
        calls.alter method fun old => NameSet.union (old.getD ∅) callees) calls).get? caller =
      ((NameMap.find? caller entries).map fun callees =>
        NameSet.union ((calls.get? caller).getD ∅) callees).or (calls.get? caller) := by
  induction entries generalizing calls with
  | nil => rfl
  | cons first rest ih =>
    obtain ⟨method, callees⟩ := first
    obtain ⟨hfirst, hrest⟩ := List.pairwise_cons.1 he
    rw [List.foldl_cons, ih hrest, NameMap.get?_alter, NameMap.find?]
    by_cases hm : caller = method
    · subst hm
      rw [NameMap.find?_eq_none hfirst, if_pos rfl, if_pos rfl]
      rfl
    · rw [if_neg hm, if_neg hm]

theorem get?_merge (g h : CallGraph) : (g.merge h).calls.get? caller =
    ((h.calls.get? caller).map fun callees =>
      NameSet.union ((g.calls.get? caller).getD ∅) callees).or (g.calls.get? caller) :=
  get?_foldl_union h.calls.sorted g.calls

/-- A method is listed if either graph lists it. -/
theorem mem_keys_merge : caller ∈ (g.merge h).calls.keys ↔
    caller ∈ g.calls.keys ∨ caller ∈ h.calls.keys := by
  simp only [← NameMap.isSome_get?_iff, get?_merge]
  cases h.calls.get? caller <;> simp

/-- A call is there if either graph has it. -/
theorem calls_merge_iff : (g.merge h).Calls caller callee ↔
    g.Calls caller callee ∨ h.Calls caller callee := by
  have hnone : callee ∉ (∅ : NameSet).toList := List.not_mem_nil
  simp only [Calls, get?_merge]
  cases h.calls.get? caller <;> cases g.calls.get? caller <;> simp [NameSet.mem_toList_union, hnone]

/-- A graph is the methods it lists and the calls it has. -/
theorem ext_calls (hk : ∀ caller, caller ∈ g.calls.keys ↔ caller ∈ h.calls.keys)
    (hc : ∀ caller callee, g.Calls caller callee ↔ h.Calls caller callee) : g = h := by
  obtain ⟨gcalls⟩ := g
  obtain ⟨hcalls⟩ := h
  refine congrArg CallGraph.mk (NameMap.ext_get? fun caller => ?_)
  have hsome := hk caller
  rw [← NameMap.isSome_get?_iff, ← NameMap.isSome_get?_iff] at hsome
  have hcallees := hc caller
  simp only [Calls] at hcallees
  cases hg : gcalls.get? caller <;> cases hh : hcalls.get? caller
  · rfl
  · simp [hg, hh] at hsome
  · simp [hg, hh] at hsome
  · rw [hg, hh] at hcallees
    exact congrArg some (NameSet.ext_toList fun callee => by simpa using hcallees callee)

theorem merge_assoc (g h k : CallGraph) : (g.merge h).merge k = g.merge (h.merge k) := by
  apply ext_calls
  · simp only [mem_keys_merge, or_assoc, implies_true]
  · simp only [calls_merge_iff, or_assoc, implies_true]

theorem merge_comm (g h : CallGraph) : g.merge h = h.merge g := by
  apply ext_calls
  · simp only [mem_keys_merge, or_comm, implies_true]
  · simp only [calls_merge_iff, or_comm, implies_true]

theorem merge_self (g : CallGraph) : g.merge g = g := by
  apply ext_calls
  · simp only [mem_keys_merge, or_self, implies_true]
  · simp only [calls_merge_iff, or_self, implies_true]

section Union

/-- The graph lists what some of the maps lists, and has the calls that some of them has. -/
structure IsUnion (maps : CallGraph → Prop) (g : CallGraph) : Prop where
  listed : ∀ caller, caller ∈ g.calls.keys ↔ ∃ m, maps m ∧ caller ∈ m.calls.keys
  calls : ∀ caller callee, g.Calls caller callee ↔ ∃ m, maps m ∧ m.Calls caller callee

variable {maps others : CallGraph → Prop}

theorem IsUnion.empty : IsUnion (fun _ => False) CallGraph.empty where
  listed caller := by simp [CallGraph.empty, ← NameMap.isSome_get?_iff, NameMap.get?_empty]
  calls caller callee := by simp [CallGraph.empty, Calls, NameMap.get?_empty]

theorem IsUnion.merge (hg : IsUnion maps g) (m : CallGraph) :
    IsUnion (fun n => maps n ∨ n = m) (g.merge m) where
  listed caller := by simp [mem_keys_merge, hg.listed, or_and_right, exists_or]
  calls caller callee := by simp [calls_merge_iff, hg.calls, or_and_right, exists_or]

/-- The same maps have one union. -/
theorem IsUnion.unique (hg : IsUnion maps g) (hh : IsUnion others h)
    (hm : ∀ m, maps m ↔ others m) : g = h := by
  apply ext_calls
  · intro caller
    simp only [hg.listed, hh.listed, hm]
  · intro caller callee
    simp only [hg.calls, hh.calls, hm]

end Union

/-- Calls that are added lead on from where calls led before. -/
theorem mem_reachableSet_merge {roots : List String} {method : String} (h : CallGraph)
    (hm : method ∈ (g.reachableSet roots).toList) : method ∈ ((g.merge h).reachableSet roots).toList := by
  obtain ⟨root, hroot, path⟩ := mem_reachableSet_iff.1 hm
  have hcalls : ∀ caller callee, g.Calls caller callee → (g.merge h).Calls caller callee :=
    fun caller callee hc => calls_merge_iff.2 (.inl hc)
  exact mem_reachableSet_iff.2 ⟨root, hroot, Relation.ReflTransGen.mono hcalls _ _ path⟩

end CallGraph

namespace FileTree

variable {tree : FileTree} {paths here : List String}

/-- The file holds a dependency map that can be read. -/
def HoldsMap (tree : FileTree) (here : List String) (path : String) (m : CallGraph) : Prop :=
  tree.loadDocument CallGraph.decode path here = .ok m

/-- Maps that can all be read are united with what was there. -/
theorem foldlM_merge {maps : CallGraph → Prop} {start : CallGraph} (hs : CallGraph.IsUnion maps start)
    (h : ∀ path ∈ paths, ∃ m, tree.HoldsMap here path m) :
    ∃ g, paths.foldlM (fun g path => g.merge <$> tree.loadDocument CallGraph.decode path here) start =
        .ok g ∧
      CallGraph.IsUnion (fun m => maps m ∨ ∃ path ∈ paths, tree.HoldsMap here path m) g := by
  induction paths generalizing maps start with
  | nil => exact ⟨start, rfl, by simpa using hs⟩
  | cons path paths ih =>
    obtain ⟨⟨m, hm⟩, hmore⟩ := List.forall_mem_cons.1 h
    obtain ⟨g, hg, hunion⟩ := ih (hs.merge m) hmore
    refine ⟨g, bind_eq_ok_iff.2 ⟨_, map_eq_ok_iff.2 ⟨m, hm, rfl⟩, hg⟩, ?_⟩
    have hfirst : ∀ n, tree.HoldsMap here path n ↔ n = m := by
      intro n
      rw [HoldsMap, show tree.loadDocument CallGraph.decode path here = .ok m from hm]
      simp [eq_comm]
    simpa only [List.exists_mem_cons_iff, hfirst, or_assoc] using hunion

theorem loadCallGraph_isUnion (h : ∀ path ∈ paths, ∃ m, tree.HoldsMap here path m) :
    ∃ g, tree.loadCallGraph paths here = .ok g ∧
      CallGraph.IsUnion (fun m => ∃ path ∈ paths, tree.HoldsMap here path m) g := by
  obtain ⟨g, hg, hunion⟩ := foldlM_merge .empty h
  exact ⟨g, hg, by simpa only [false_or] using hunion⟩

/-- Files of readable maps load to the union of the maps, in any order and however often each file is
given. Joining is associative, commutative and idempotent, and from a start that is listed it reaches
all that was reached before. -/
theorem loadCallGraph_union (tree : FileTree) (here : List String) :
    (∀ paths, (∀ path ∈ paths, ∃ m, tree.HoldsMap here path m) →
      ∃ g, tree.loadCallGraph paths here = .ok g ∧
        CallGraph.IsUnion (fun m => ∃ path ∈ paths, tree.HoldsMap here path m) g ∧
        ∀ others, (∀ path, path ∈ others ↔ path ∈ paths) → tree.loadCallGraph others here = .ok g) ∧
    (∀ g h k : CallGraph, (g.merge h).merge k = g.merge (h.merge k) ∧ g.merge h = h.merge g ∧
      g.merge g = g) ∧
    ∀ (g h : CallGraph) (start : String), start ∈ g.calls.keys →
      start ∈ (g.merge h).calls.keys ∧ ∃ reached more, g.reachableFrom start = .ok reached ∧
        (g.merge h).reachableFrom start = .ok more ∧
        ∀ method ∈ reached.toList, method ∈ more.toList := by
  refine ⟨fun paths hp => ?_, fun g h k => ?_, fun g h start hs => ?_⟩
  · obtain ⟨g, hg, hunion⟩ := loadCallGraph_isUnion hp
    refine ⟨g, hg, hunion, fun others hsame => ?_⟩
    obtain ⟨g', hg', hunion'⟩ := loadCallGraph_isUnion fun path ho => hp path ((hsame path).1 ho)
    rw [hg', hunion'.unique hunion fun m => by simp only [hsame]]
  · exact ⟨CallGraph.merge_assoc g h k, CallGraph.merge_comm g h, CallGraph.merge_self g⟩
  · have hmerged : start ∈ (g.merge h).calls.keys := CallGraph.mem_keys_merge.2 (.inl hs)
    exact ⟨hmerged, _, _, CallGraph.reachableFrom_of_mem hs, CallGraph.reachableFrom_of_mem hmerged,
      fun method hm => CallGraph.mem_reachableSet_merge h hm⟩

theorem loadCallGraph_union_twoFiles :
    let tree := dir [("w", dir [("a.json", .file (.ofText "\x7b\"a\": [\"b\"], \"b\": []\x7d"))]),
      ("c.json", .file (.ofText "\x7b\"a\": [\"c\", \"b\"]\x7d"))]
    let g : CallGraph := ⟨.ofList [("a", .ofList ["b", "c"]), ("b", ∅)]⟩
    let h : CallGraph := ⟨.ofList [("c", .ofList ["a", "d"])]⟩
    (∀ path ∈ ["a.json", "/c.json"], ∃ m, tree.HoldsMap ["w"] path m) ∧
      tree.loadCallGraph ["a.json", "/c.json"] ["w"] = .ok g ∧
      tree.loadCallGraph ["/c.json", "a.json", "/c.json"] ["w"] = .ok g ∧
      "a" ∈ g.calls.keys ∧ ∃ reached more, g.reachableFrom "a" = .ok reached ∧
        (g.merge h).reachableFrom "a" = .ok more ∧ ∀ method ∈ reached.toList, method ∈ more.toList := by
  intro tree g h
  have hmaps : ∀ path ∈ ["a.json", "/c.json"], ∃ m, tree.HoldsMap ["w"] path m := by
    refine List.forall_mem_cons.2 ⟨⟨⟨.ofList [("a", .ofList ["b"]), ("b", ∅)]⟩, ?_⟩,
      List.forall_mem_singleton.2 ⟨⟨.ofList [("a", .ofList ["b", "c"])]⟩, ?_⟩⟩
    · unfold HoldsMap
      decide +kernel
    · unfold HoldsMap
      decide +kernel
  have hload : tree.loadCallGraph ["a.json", "/c.json"] ["w"] = .ok g := by decide +kernel
  have hstart : "a" ∈ g.calls.keys := by decide +kernel
  obtain ⟨hunion, -, hreach⟩ := loadCallGraph_union tree ["w"]
  obtain ⟨g', hg', -, hothers⟩ := hunion _ hmaps
  obtain rfl : g = g' := Except.ok.inj (hload.symm.trans hg')
  exact ⟨hmaps, hload, hothers _ (by simp [or_comm]), hstart, (hreach g h "a" hstart).2⟩

end FileTree

end ApiSurface
