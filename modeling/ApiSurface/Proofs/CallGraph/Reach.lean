import ApiSurface.CallGraph.Reach
import ApiSurface.Proofs.NameMap
import Mathlib.Logic.Relation

namespace ApiSurface.CallGraph

open Relation (ReflTransGen)

theorem mem_others_iff {method other : String} {methods : List String} :
    other ∈ others method methods ↔ other ∈ methods ∧ other ≠ method := by
  simp [others]

section Search

variable {next : String → List String} {unmet pending : List String} {caller method : String}

/-- Every method that is met is at the end of a path from a pending one. -/
theorem exists_path_of_mem_search (h : method ∈ search next unmet pending) :
    ∃ root ∈ pending, ReflTransGen (fun caller callee => callee ∈ next caller) root method := by
  fun_induction search next unmet pending with
  | case1 => cases h
  | case2 unmet first pending hu ih =>
    rcases List.mem_cons.1 h with rfl | h
    · exact ⟨method, List.mem_cons_self, .refl⟩
    · obtain ⟨root, hr, path⟩ := ih h
      rcases List.mem_append.1 hr with hr | hr
      · exact ⟨first, List.mem_cons_self, path.head hr⟩
      · exact ⟨root, List.mem_cons_of_mem _ hr, path⟩
  | case3 unmet first pending hu ih =>
    obtain ⟨root, hr, path⟩ := ih h
    exact ⟨root, List.mem_cons_of_mem _ hr, path⟩

/-- A pending method that was not met before is met. -/
theorem mem_search_of_mem_pending (hp : method ∈ pending) (hu : method ∈ unmet) :
    method ∈ search next unmet pending := by
  fun_induction search next unmet pending with
  | case1 => cases hp
  | case2 unmet first pending hfirst ih =>
    by_cases he : method = first
    · rw [he]
      exact List.mem_cons_self
    · have hrest : method ∈ pending := (List.mem_cons.1 hp).resolve_left he
      have hunmet : method ∈ others first unmet := mem_others_iff.2 ⟨hu, he⟩
      exact List.mem_cons_of_mem _ (ih (List.mem_append_right _ hrest) hunmet)
  | case3 unmet first pending hfirst ih =>
    have he : method ≠ first := by
      rintro rfl
      exact hfirst hu
    exact ih ((List.mem_cons.1 hp).resolve_left he) hu

/-- The callees of a method that is met become pending with it, so they are met as well, unless they
were met before. -/
theorem mem_search_of_mem_next (hm : caller ∈ search next unmet pending)
    (hc : method ∈ next caller) (hu : method ∈ unmet) : method ∈ search next unmet pending := by
  fun_induction search next unmet pending with
  | case1 => cases hm
  | case2 unmet first pending hfirst ih =>
    by_cases he : method = first
    · rw [he]
      exact List.mem_cons_self
    · have hunmet : method ∈ others first unmet := mem_others_iff.2 ⟨hu, he⟩
      apply List.mem_cons_of_mem
      rcases List.mem_cons.1 hm with rfl | hm
      · exact mem_search_of_mem_pending (List.mem_append_left _ hc) hunmet
      · exact ih hm hunmet
  | case3 unmet first pending hfirst ih => exact ih hm hu

/-- The search goes along every path, as long as nothing on it was met before. -/
theorem mem_search_of_path (hu : ∀ caller, ∀ callee ∈ next caller, callee ∈ unmet)
    (hm : caller ∈ search next unmet pending)
    (path : ReflTransGen (fun caller callee => callee ∈ next caller) caller method) :
    method ∈ search next unmet pending := by
  induction path with
  | refl => exact hm
  | tail _ hc ih => exact mem_search_of_mem_next ih hc (hu _ _ hc)

end Search

/-- The graph lists `caller`, and `callee` among the methods that it calls. -/
def Calls (g : CallGraph) (caller callee : String) : Prop :=
  ∃ callees, g.calls.get? caller = some callees ∧ callee ∈ callees.toList

section Reach

variable {g : CallGraph} {roots : List String} {start caller callee method : String}

/-- A method that is not listed calls nothing. -/
theorem mem_callees_iff : callee ∈ g.callees caller ↔ g.Calls caller callee := by
  rw [callees, callees?, Calls]
  cases g.calls.get? caller <;> simp

theorem Calls.mem_mentioned (h : g.Calls caller callee) : callee ∈ g.mentioned := by
  obtain ⟨callees, hc, hm⟩ := h
  exact List.mem_append_right _ (List.mem_flatMap.2 ⟨callees, NameMap.mem_values_of_get? hc, hm⟩)

theorem mem_reachableSet_iff :
    method ∈ (g.reachableSet roots).toList ↔ ∃ root ∈ roots, ReflTransGen g.Calls root method := by
  have hcalls : (fun caller callee => callee ∈ g.callees caller) = g.Calls := by
    funext caller callee
    exact propext mem_callees_iff
  have hunmet : ∀ caller, ∀ callee ∈ g.callees caller, callee ∈ roots ++ g.mentioned := by
    intro caller callee hc
    exact List.mem_append_right _ (mem_callees_iff.1 hc).mem_mentioned
  rw [reachableSet, NameSet.mem_toList_ofList, ← hcalls]
  constructor
  · exact exists_path_of_mem_search
  · rintro ⟨root, hr, path⟩
    have hroot : root ∈ search g.callees (roots ++ g.mentioned) roots :=
      mem_search_of_mem_pending hr (List.mem_append_left _ hr)
    exact mem_search_of_path hunmet hroot path

theorem contains_iff : g.contains method = true ↔ method ∈ g.calls.keys := g.calls.contains_iff

theorem reachableFrom_of_mem (h : start ∈ g.calls.keys) :
    g.reachableFrom start = .ok (g.reachableSet [start]) := by
  rw [reachableFrom, if_pos (contains_iff.2 h)]

theorem reachableFrom_of_not_mem (h : start ∉ g.calls.keys) :
    g.reachableFrom start = .error (.unknownStart start) := by
  rw [reachableFrom, if_neg (mt contains_iff.1 h)]

end Reach

/-- From roots, known to the graph or not, exactly the methods at the end of a path of calls are
reached, of no calls or more. A single start has to be listed itself, not only called. -/
theorem reachable_iff_path (g : CallGraph) :
    (∀ roots method, method ∈ (g.reachableSet roots).toList ↔
      ∃ root ∈ roots, ReflTransGen g.Calls root method) ∧
    ∀ start,
      (start ∈ g.calls.keys ∧ ∃ reached, g.reachableFrom start = .ok reached ∧
        ∀ method, method ∈ reached.toList ↔ ReflTransGen g.Calls start method) ∨
      (start ∉ g.calls.keys ∧ g.reachableFrom start = .error (.unknownStart start)) := by
  constructor
  · intro roots method
    exact mem_reachableSet_iff
  · intro start
    by_cases hs : start ∈ g.calls.keys
    · refine .inl ⟨hs, g.reachableSet [start], reachableFrom_of_mem hs, ?_⟩
      intro method
      rw [mem_reachableSet_iff]
      simp
    · exact .inr ⟨hs, reachableFrom_of_not_mem hs⟩

end ApiSurface.CallGraph
