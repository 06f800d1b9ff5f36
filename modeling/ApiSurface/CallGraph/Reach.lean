import ApiSurface.CallGraph.Basic

namespace ApiSurface.CallGraph

def others (method : String) (methods : List String) : List String := methods.filter (· ≠ method)

theorem length_others_lt {method : String} {methods : List String} (h : method ∈ methods) :
    (others method methods).length < methods.length := by
  have hle := List.length_filter_le (· ≠ method) methods
  refine Nat.lt_of_le_of_ne hle fun he => ?_
  simpa using List.length_filter_eq_length_iff.1 he method h

/-- The methods among `unmet` that the search meets from `pending` on. -/
def search (next : String → List String) (unmet pending : List String) : List String :=
  match pending with
  | [] => []
  | method :: pending =>
    if _h : method ∈ unmet then method :: search next (others method unmet) (next method ++ pending)
    else search next unmet pending
termination_by (unmet.length, pending.length)
decreasing_by
  · exact Prod.Lex.left _ _ (length_others_lt _h)
  · exact Prod.Lex.right _ (Nat.lt_succ_self _)

def mentioned (g : CallGraph) : List String :=
  g.calls.keys ++ g.calls.values.flatMap NameSet.toList

/-- What can be reached from the roots by calls, the roots included, known to the graph or not. -/
def reachableSet (g : CallGraph) (roots : List String) : NameSet :=
  .ofList (search g.callees (roots ++ g.mentioned) roots)

def reachableFrom (g : CallGraph) (start : String) : Except Fault NameSet :=
  if g.contains start then .ok (g.reachableSet [start]) else .error (.unknownStart start)

structure Subgraph where
  nodes : List String
  edges : List (String × String)
  deriving DecidableEq, Repr

/-- The methods of a set and all calls between two of them, in order. -/
def subgraph (g : CallGraph) (reachable : NameSet) : Subgraph where
  nodes := reachable.toList
  edges := reachable.toList.flatMap fun method =>
    ((g.callees method).filter reachable.contains).map (method, ·)

end ApiSurface.CallGraph
