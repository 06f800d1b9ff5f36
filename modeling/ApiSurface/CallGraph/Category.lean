import ApiSurface.CallGraph.Reach
import ApiSurface.Record

namespace ApiSurface.CallGraph

/-- The declaring type for each name that a record gives. -/
structure CategoryIndex where
  owners : NameMap String
  deriving DecidableEq, Repr

def otherCategory : String := "other"

namespace CategoryIndex

def empty : CategoryIndex := ⟨∅⟩

/-- Notes an owned function under its qualified and its plain name, unless a record before it had the
same name. -/
def addRecord (owners : NameMap String) (r : FunctionRecord) : NameMap String :=
  match r.owner with
  | some owner => (owners.insertNew r.qualifiedName owner).insertNew r.name owner
  | none => owners

def ofRecords (records : List FunctionRecord) : CategoryIndex := ⟨records.foldl addRecord ∅⟩

def categoryOf (index : CategoryIndex) (method : String) : String :=
  (index.owners.get? method).getD otherCategory

end CategoryIndex

namespace Subgraph

def categories (g : Subgraph) (index : CategoryIndex) : List String :=
  (NameSet.ofList (g.nodes.map index.categoryOf)).toList

end Subgraph

end ApiSurface.CallGraph
