import ApiSurface.CallGraph.Category

namespace ApiSurface.CallGraph

open Json

structure ListedNode where
  id : Nat
  name : String
  category : String
  isStart : Bool
  deriving DecidableEq, Repr

/-- A subgraph whose calls are pairs of node numbers. -/
structure Listing where
  start : String
  nodes : List ListedNode
  edges : List (Nat × Nat)
  categories : List String
  deriving DecidableEq, Repr

def Subgraph.listing (index : CategoryIndex) (start : String) (g : Subgraph) : Listing where
  start := start
  nodes := g.nodes.zipIdx.map fun (name, id) => ⟨id, name, index.categoryOf name, name == start⟩
  edges := g.edges.filterMap fun (source, target) => do
    return (← g.nodes.idxOf? source, ← g.nodes.idxOf? target)
  categories := g.categories index

namespace Listing

def encodeNode (n : ListedNode) : Value :=
  .ofFields [("id", .ofNat n.id), ("name", .ofString n.name), ("category", .ofString n.category),
    ("is_start", .bool n.isStart)]

def encodeEdge (e : Nat × Nat) : Value := .ofFields [("from", .ofNat e.1), ("to", .ofNat e.2)]

def encode (l : Listing) : Value :=
  .ofFields [("start", .ofString l.start), ("nodes", .ofList encodeNode l.nodes),
    ("edges", .ofList encodeEdge l.edges), ("categories", .ofList .ofString l.categories)]

end Listing

def encodeReachable (start : String) (reachable : NameSet) : Value :=
  .ofFields [("start", .ofString start), ("reachable", .ofList .ofString reachable.toList)]

end ApiSurface.CallGraph
