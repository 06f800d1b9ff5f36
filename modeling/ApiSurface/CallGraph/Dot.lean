import ApiSurface.CallGraph.Category

namespace ApiSurface.CallGraph

def palette : List String :=
  ["lightblue", "lightgreen", "khaki", "plum", "lightsalmon", "paleturquoise", "wheat", "thistle"]

def otherColor : String := "lightgrey"

/-- The colour of a category among `used`: its place among those with an owner picks it. -/
def colorOf (used : List String) (category : String) : String :=
  if category = otherCategory then otherColor
  else
    let place := (used.filter (· ≠ otherCategory)).idxOf category
    palette.getD (place % palette.length) otherColor

def escapeChar (c : Char) : List Char := if c = '"' ∨ c = '\\' then ['\\', c] else [c]

def quotedChars (name : String) : List Char := '"' :: name.toList.flatMap escapeChar ++ ['"']

namespace Subgraph

variable (index : CategoryIndex) (start : String)

def legendLine (used : List String) (category : String) : List Char :=
  "  // category ".toList ++ category.toList ++ " = ".toList ++ (colorOf used category).toList ++
    ['\n']

def nodeLine (used : List String) (name : String) : List Char :=
  let category := index.categoryOf name
  "  ".toList ++ quotedChars name ++ " [category=".toList ++ quotedChars category ++
    ", fillcolor=".toList ++ (colorOf used category).toList ++
    (if name = start then ", penwidth=3, peripheries=2".toList else []) ++ "];\n".toList

def edgeLine (edge : String × String) : List Char :=
  "  ".toList ++ quotedChars edge.1 ++ " -> ".toList ++ quotedChars edge.2 ++ ";\n".toList

def headLines : List Char :=
  "digraph reachable \x7b\n  rankdir=LR;\n".toList ++
    "  node [shape=box, style=filled, fontname=\"JetBrains Mono\"];\n".toList

def dotChars (g : Subgraph) : List Char :=
  let used := g.categories index
  headLines ++ used.flatMap (legendLine used) ++ ['\n'] ++
    g.nodes.flatMap (nodeLine index start used) ++ ['\n'] ++ g.edges.flatMap edgeLine ++
    "\x7d\n".toList

end Subgraph

end ApiSurface.CallGraph
