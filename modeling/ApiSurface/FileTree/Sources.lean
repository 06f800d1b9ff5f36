import ApiSurface.Corpus
import ApiSurface.FileTree.Write

namespace ApiSurface.FileTree

/-- Directories that never hold sources of their own. -/
def alwaysExcluded : List String := ["target", ".git", "node_modules", ".cargo"]

def isSourceName (name : String) : Bool := Path.hasExtension ['r', 's'] name

mutual

/-- What lies below a directory, with the names that lead there; an excluded directory is left out
with all that it holds. -/
def nodesBelow (excluded : List String) : FileTree → List (List String × FileTree)
  | .file _ => []
  | .dir entries => entryNodes excluded entries
termination_by structural tree => tree

def entryNodes (excluded : List String) :
    List (String × FileTree) → List (List String × FileTree)
  | [] => []
  | (name, node) :: rest =>
    (if node.isDir && excluded.contains name then []
      else ([name], node) :: (node.nodesBelow excluded).map (Prod.map (name :: ·) id)) ++
      entryNodes excluded rest
termination_by structural entries => entries

end

def isSource (place : List String) (node : FileTree) : Bool :=
  node.isFile && place.getLast?.any isSourceName

/-- Whether a place comes no later than another, name by name. -/
def placeLe (p q : List String) : Bool := !(q < p)

def pathBelow (root : String) (place : List String) : String :=
  Path.join root ("/".intercalate place)

/-- The places of the source files among what is found, in order. -/
def sourcePlaces (found : List (List String × FileTree)) : List (List String) :=
  ((found.filter fun e => isSource e.1 e.2).map (·.1)).mergeSort placeLe

/-- The paths of the source files among what is found below `root`, in whatever order it is found. Where
the whole path is too long, a directory ends the search and a file is passed over. -/
def sourcesAmong (root : String) (found : List (List String × FileTree)) : Option (List String) :=
  if found.all fun e => e.2.isFile || Path.isUsable (pathBelow root e.1) then
    some (((sourcePlaces found).map (pathBelow root)).filter Path.isUsable)
  else none

/-- The paths of all source files below `root` that no excluded directory holds. A root that is a
source file itself stands for that file. -/
def sourcePaths (tree : FileTree) (excluded : List String) (root : String)
    (here : List String := []) : Option (List String) :=
  match tree.find? root here with
  | none => none
  | some (.file _) => some (if (Path.fileName? root).any isSourceName then [root] else [])
  | some (.dir entries) =>
    sourcesAmong root ((FileTree.dir entries).nodesBelow (alwaysExcluded ++ excluded))

/-- A source file under a path written with slashes only. -/
def readSource (tree : FileTree) (here : List String) (path : String) : Except Fault SourceFile := do
  let text ← atPath path (tree.readText path here)
  return ⟨path.map fun c => if c = '\\' then '/' else c, text⟩

def readSources (tree : FileTree) (paths : List String) (here : List String := []) :
    Except Fault (List SourceFile) :=
  paths.mapM (tree.readSource here)

end ApiSurface.FileTree
