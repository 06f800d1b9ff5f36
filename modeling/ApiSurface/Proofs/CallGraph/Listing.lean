import ApiSurface.CallGraph.Listing
import ApiSurface.Proofs.CallGraph.Reach
import Mathlib.Data.List.Count
import Mathlib.Data.List.Nodup
import Mathlib.Data.Prod.Lex

namespace ApiSurface.CallGraph

/-- `sub` has exactly the methods of `reached` and all their calls, both in order. -/
structure Subgraph.Spans (sub : Subgraph) (g : CallGraph) (reached : NameSet) : Prop where
  nodes : sub.nodes = reached.toList
  sortedNodes : sub.nodes.Pairwise (· < ·)
  edges : ∀ caller callee, (caller, callee) ∈ sub.edges ↔
    caller ∈ reached.toList ∧ g.Calls caller callee
  sortedEdges : sub.edges.Pairwise (Prod.Lex (· < ·) (· < ·))

/-- The name of the node with a number. -/
def Listing.nameOf? (listing : Listing) (id : Nat) : Option String :=
  (listing.nodes.find? (·.id == id)).map (·.name)

/-- The names of the nodes that a call of a listing is between. -/
def Listing.edgeNames? (listing : Listing) (edge : Nat × Nat) : Option (String × String) := do
  return (← listing.nameOf? edge.1, ← listing.nameOf? edge.2)

/-- The type that declares a method: the owner of the first owned function that has the method's name,
plain or qualified. -/
def declaringType? (records : List FunctionRecord) (method : String) : Option String :=
  (records.find? fun r => r.owner.isSome && (r.name == method || r.qualifiedName == method)).bind
    (·.owner)

/-- `listing` numbers the nodes of `sub` by their places and tells all that `sub` does, which node is
`start`, and the types that declare the methods. -/
structure Listing.Numbers (listing : Listing) (sub : Subgraph) (start : String)
    (records : List FunctionRecord) : Prop where
  startName : listing.start = start
  ids : listing.nodes.map (·.id) = List.range sub.nodes.length
  names : listing.nodes.map (·.name) = sub.nodes
  edges : listing.edges.map listing.edgeNames? = sub.edges.map some
  oneStart : (listing.nodes.filter (·.isStart)).map (·.name) = [start]
  category : ∀ node ∈ listing.nodes,
    node.category = (declaringType? records node.name).getD otherCategory
  categories : ∀ category, category ∈ listing.categories ↔
    ∃ node ∈ listing.nodes, node.category = category
  sortedCategories : listing.categories.Pairwise (· < ·)

section Subgraph

variable {g : CallGraph} {reached : NameSet} {caller callee start : String}

theorem sorted_callees (g : CallGraph) (method : String) : (g.callees method).Pairwise (· < ·) := by
  rw [callees]
  cases g.callees? method with
  | none => exact .nil
  | some callees => exact callees.sorted_toList

theorem mem_edges_subgraph_iff : (caller, callee) ∈ (g.subgraph reached).edges ↔
    caller ∈ reached.toList ∧ g.Calls caller callee ∧ callee ∈ reached.toList := by
  rw [subgraph, List.mem_flatMap]
  constructor
  · rintro ⟨method, hm, he⟩
    obtain ⟨other, ho, he⟩ := List.mem_map.1 he
    obtain ⟨rfl, rfl⟩ := Prod.mk.inj he
    obtain ⟨hc, hr⟩ := List.mem_filter.1 ho
    exact ⟨hm, mem_callees_iff.1 hc, NameSet.contains_iff reached |>.1 hr⟩
  · rintro ⟨hm, hc, hr⟩
    have ho : callee ∈ (g.callees caller).filter reached.contains :=
      List.mem_filter.2 ⟨mem_callees_iff.2 hc, NameSet.contains_iff reached |>.2 hr⟩
    exact ⟨caller, hm, List.mem_map_of_mem ho⟩

theorem sorted_edges_subgraph :
    (g.subgraph reached).edges.Pairwise (Prod.Lex (· < ·) (· < ·)) := by
  rw [subgraph, List.pairwise_flatMap]
  constructor
  · intro method _
    rw [List.pairwise_map]
    exact ((g.sorted_callees method).filter _).imp fun h => Prod.Lex.right _ h
  · refine reached.sorted_toList.imp ?_
    intro first second hlt edge he other ho
    obtain ⟨callee, -, rfl⟩ := List.mem_map.1 he
    obtain ⟨callee', -, rfl⟩ := List.mem_map.1 ho
    exact Prod.Lex.left _ _ hlt

/-- A path goes on along a call, so what a reached method calls is reached. -/
theorem Calls.mem_reachableSet {roots : List String} (h : g.Calls caller callee)
    (hm : caller ∈ (g.reachableSet roots).toList) : callee ∈ (g.reachableSet roots).toList := by
  obtain ⟨root, hr, path⟩ := mem_reachableSet_iff.1 hm
  exact mem_reachableSet_iff.2 ⟨root, hr, path.tail h⟩

theorem subgraph_spans (g : CallGraph) (roots : List String) :
    (g.subgraph (g.reachableSet roots)).Spans g (g.reachableSet roots) where
  nodes := rfl
  sortedNodes := (g.reachableSet roots).sorted_toList
  edges := by
    intro caller callee
    rw [mem_edges_subgraph_iff]
    constructor
    · intro h
      exact ⟨h.1, h.2.1⟩
    · intro h
      exact ⟨h.1, h.2, h.2.mem_reachableSet h.1⟩
  sortedEdges := sorted_edges_subgraph

end Subgraph

section Category

variable {records : List FunctionRecord}

/-- Of two records for a name the first counts. -/
theorem declaringType?_cons (r : FunctionRecord) (records : List FunctionRecord) (method : String) :
    declaringType? (r :: records) method =
      (declaringType? [r] method).or (declaringType? records method) := by
  unfold declaringType?
  cases ho : r.owner with
  | none => simp [ho]
  | some owner => by_cases hm : (r.name == method || r.qualifiedName == method) <;> simp [ho, hm]

/-- A record is noted under both its names, where no record before it was. -/
theorem get?_addRecord (owners : NameMap String) (r : FunctionRecord) (method : String) :
    (CategoryIndex.addRecord owners r).get? method =
      (owners.get? method).or (declaringType? [r] method) := by
  unfold CategoryIndex.addRecord declaringType?
  cases ho : r.owner with
  | none => simp [ho]
  | some owner =>
    rw [NameMap.get?_insertNew, NameMap.get?_insertNew, Option.or_assoc]
    congr 1
    by_cases hn : r.name = method <;> by_cases hq : r.qualifiedName = method <;>
      simp [ho, hn, hq, @eq_comm _ method]

theorem get?_foldl_addRecord (owners : NameMap String) (method : String) :
    (records.foldl CategoryIndex.addRecord owners).get? method =
      (owners.get? method).or (declaringType? records method) := by
  induction records generalizing owners with
  | nil => simp [declaringType?]
  | cons r records ih =>
    rw [List.foldl_cons, ih, get?_addRecord, declaringType?_cons r records, Option.or_assoc]

theorem categoryOf_ofRecords (records : List FunctionRecord) (method : String) :
    (CategoryIndex.ofRecords records).categoryOf method =
      (declaringType? records method).getD otherCategory := by
  rw [CategoryIndex.categoryOf, CategoryIndex.ofRecords, get?_foldl_addRecord, NameMap.get?_empty,
    Option.none_or]

end Category

section Listing

variable {sub : Subgraph} {index : CategoryIndex} {start : String}

/-- Names that are numbered from `first` on stand at their number less `first`. -/
theorem find?_zipIdx (names : List String) (first place : Nat) :
    (names.zipIdx first).find? (·.2 == first + place) =
      names[place]?.map fun name => (name, first + place) := by
  induction names generalizing first place with
  | nil => rfl
  | cons name names ih =>
    rw [List.zipIdx_cons, List.find?_cons]
    cases place with
    | zero => simp
    | succ place =>
      have hne : (first == first + (place + 1)) = false := by simp
      have hnext : first + (place + 1) = first + 1 + place := by omega
      rw [hne, hnext, ih, List.getElem?_cons_succ]

theorem nameOf?_listing (id : Nat) : (sub.listing index start).nameOf? id = sub.nodes[id]? := by
  have hfind := find?_zipIdx sub.nodes 0 id
  simp only [Nat.zero_add] at hfind
  rw [Listing.nameOf?, Subgraph.listing, List.find?_map, Function.comp_def, hfind]
  cases sub.nodes[id]? <;> rfl

/-- The number that a name has in a list is the place where it stands. -/
theorem exists_idxOf?_of_mem {name : String} {names : List String} (h : name ∈ names) :
    ∃ place, names.idxOf? name = some place ∧ names[place]? = some name := by
  obtain ⟨place, hp⟩ := Option.isSome_iff_exists.1 (List.isSome_idxOf?.2 h)
  obtain ⟨hlt, hname, -⟩ := List.idxOf?_eq_some_iff.1 hp
  refine ⟨place, hp, ?_⟩
  rw [List.getElem?_eq_getElem hlt, hname]

/-- Where every element is translated and back, none is left out. -/
theorem map_filterMap_eq_map_some {α β : Type} {there : α → Option β} {back : β → Option α}
    {l : List α} (h : ∀ a ∈ l, ∃ b, there a = some b ∧ back b = some a) :
    (l.filterMap there).map back = l.map some := by
  induction l with
  | nil => rfl
  | cons a l ih =>
    obtain ⟨b, hthere, hback⟩ := h a List.mem_cons_self
    have hrest := ih fun a' ha => h a' (List.mem_cons_of_mem _ ha)
    rw [List.filterMap_cons_some hthere, List.map_cons, List.map_cons, hback, hrest]

/-- No call between nodes is lost when its ends are numbered. -/
theorem map_edgeNames?_listing
    (h : ∀ edge ∈ sub.edges, edge.1 ∈ sub.nodes ∧ edge.2 ∈ sub.nodes) :
    (sub.listing index start).edges.map (sub.listing index start).edgeNames? =
      sub.edges.map some := by
  apply map_filterMap_eq_map_some
  rintro ⟨caller, callee⟩ he
  obtain ⟨source, hs, hcaller⟩ := exists_idxOf?_of_mem (h _ he).1
  obtain ⟨target, ht, hcallee⟩ := exists_idxOf?_of_mem (h _ he).2
  refine ⟨(source, target), by simp [hs, ht], ?_⟩
  simp only [Listing.edgeNames?, nameOf?_listing, hcaller, hcallee]
  rfl

theorem filter_isStart_listing (hn : sub.nodes.Nodup) (hs : start ∈ sub.nodes) :
    ((sub.listing index start).nodes.filter (·.isStart)).map (·.name) = [start] := by
  have hcount : sub.nodes.count start = 1 := List.count_eq_one_of_mem hn hs
  have hnames : ((sub.listing index start).nodes.filter (·.isStart)).map (·.name) =
      (sub.nodes.zipIdx.map Prod.fst).filter (· == start) := by
    rw [Subgraph.listing, List.filter_map, List.filter_map, List.map_map]
    rfl
  rw [hnames, List.zipIdx_map_fst, List.filter_beq, hcount]
  rfl

/-- The listing of a subgraph with calls between its nodes, where the start is one of them. -/
theorem listing_numbers (records : List FunctionRecord) (hn : sub.nodes.Nodup)
    (hs : start ∈ sub.nodes)
    (he : ∀ edge ∈ sub.edges, edge.1 ∈ sub.nodes ∧ edge.2 ∈ sub.nodes) :
    (sub.listing (.ofRecords records) start).Numbers sub start records where
  startName := rfl
  ids := by
    rw [Subgraph.listing, List.map_map]
    exact (List.zipIdx_map_snd 0 sub.nodes).trans List.range_eq_range'.symm
  names := by
    rw [Subgraph.listing, List.map_map]
    exact List.zipIdx_map_fst 0 sub.nodes
  edges := map_edgeNames?_listing he
  oneStart := filter_isStart_listing hn hs
  category := by
    intro node hm
    obtain ⟨⟨name, id⟩, -, rfl⟩ := List.mem_map.1 hm
    exact categoryOf_ofRecords records name
  categories := by
    intro category
    have hnodes : (sub.listing (.ofRecords records) start).nodes.map (·.category) =
        sub.nodes.map (CategoryIndex.ofRecords records).categoryOf := by
      rw [← List.zipIdx_map_fst 0 sub.nodes, Subgraph.listing, List.map_map, List.map_map]
      rfl
    have hmem : category ∈ (sub.listing (.ofRecords records) start).categories ↔
        category ∈ sub.nodes.map (CategoryIndex.ofRecords records).categoryOf :=
      NameSet.mem_toList_ofList _
    rw [hmem, ← hnodes, List.mem_map]
  sortedCategories := NameSet.sorted_toList _

end Listing

/-- From a listed start, the reached methods are all there with all their calls, in order, and in the
listing too. -/
theorem listing_subgraph_reachable (g : CallGraph) {start : String} (records : List FunctionRecord)
    (hs : start ∈ g.calls.keys) :
    ∃ reached, g.reachableFrom start = .ok reached ∧ (g.subgraph reached).Spans g reached ∧
      ((g.subgraph reached).listing (.ofRecords records) start).Numbers (g.subgraph reached) start
        records := by
  refine ⟨g.reachableSet [start], reachableFrom_of_mem hs, subgraph_spans g [start], ?_⟩
  apply listing_numbers records
  · exact (g.reachableSet [start]).sorted_toList.nodup
  · exact mem_reachableSet_iff.2 ⟨start, List.mem_singleton_self start, .refl⟩
  · intro edge he
    obtain ⟨hm, -, hr⟩ := mem_edges_subgraph_iff.1 he
    exact ⟨hm, hr⟩

theorem listing_subgraph_cycle :
    let g : CallGraph := ⟨.ofList [("put", .ofList ["Log::end", "put"]), ("end", .ofList ["put"]),
      ("Log::end", .ofList ["put", "hash"])]⟩
    let records : List FunctionRecord :=
      [⟨⟨"end", "pub", [], [], [], none⟩, [], "", some "Log", "a.rs", 2⟩,
        ⟨⟨"end", "pub", [], [], [], none⟩, [], "", some "Store", "a.rs", 5⟩]
    "put" ∈ g.calls.keys ∧ ∃ reached, g.reachableFrom "put" = .ok reached ∧
      (g.subgraph reached).Spans g reached ∧
      ((g.subgraph reached).listing (.ofRecords records) "put").Numbers (g.subgraph reached) "put"
        records := by
  have hput : "put" ∈ (NameMap.ofList [("put", NameSet.ofList ["Log::end", "put"]),
      ("end", .ofList ["put"]), ("Log::end", .ofList ["put", "hash"])]).keys := by decide +kernel
  exact ⟨hput, listing_subgraph_reachable _ _ hput⟩

end ApiSurface.CallGraph
