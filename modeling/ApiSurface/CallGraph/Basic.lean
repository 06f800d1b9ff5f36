import ApiSurface.Fault
import ApiSurface.Json.Decode

namespace ApiSurface

open Json

def NameSet.union (s t : NameSet) : NameSet := t.toList.foldl NameSet.add s

/-- The callees of each listed method; a callee need not be listed itself. -/
structure CallGraph where
  calls : NameMap NameSet
  deriving DecidableEq, Repr

namespace CallGraph

def empty : CallGraph := ⟨∅⟩

/-- Whether a method is listed, not only called. -/
def contains (g : CallGraph) (method : String) : Bool := g.calls.contains method

def callees? (g : CallGraph) (method : String) : Option NameSet := g.calls.get? method

/-- The methods that a method calls, in order; none for a method that is not listed. -/
def callees (g : CallGraph) (method : String) : List String :=
  ((g.callees? method).elim [] NameSet.toList)

def methodCount (g : CallGraph) : Nat := g.calls.size

def edgeCount (g : CallGraph) : Nat := (g.calls.values.flatMap NameSet.toList).length

/-- The graph in which each method has the callees it has in either graph. -/
def merge (g h : CallGraph) : CallGraph :=
  ⟨h.calls.entries.foldl
    (fun calls (method, callees) => calls.alter method fun old => NameSet.union (old.getD ∅) callees)
    g.calls⟩

/-- A graph as an object that gives each method the list of its callees. -/
def decode : Decoder CallGraph := fun room v =>
  (Decoder.map (fun room v => (Decoder.list .text room v).map NameSet.ofList) room v).map .mk

end CallGraph

end ApiSurface
