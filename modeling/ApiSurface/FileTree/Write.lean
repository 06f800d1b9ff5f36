import ApiSurface.Fault
import ApiSurface.FileTree.Basic

namespace ApiSurface.FileTree

/-- Follows segments from a place on and makes the directories that are missing in a directory that is
there; the tree with what was made, and the place reached. -/
def makeDirs (tree : FileTree) (place : List String) :
    List String → FileTree × Except FileError (List String)
  | [] => (tree, if (tree.get? place).any isDir then .ok place else .error .alreadyExists)
  | segment :: more =>
    match tree.step place segment with
    | .ok place => tree.makeDirs place more
    | .error e =>
      if e = .notFound ∧ segment ≠ Path.upSegment ∧ (tree.get? place).any isDir then
        (tree.put (place ++ [segment]) (.dir [])).makeDirs (place ++ [segment]) more
      else (tree, .error e)

def createDirs (tree : FileTree) (path : String) (here : List String) :
    FileTree × Except FileError Unit :=
  match takenSegments path with
  | .ok segments => (tree.makeDirs (startOf here path) segments).map id (·.map fun _ => ())
  | .error e => (tree, .error e)

/-- The place of the file that writing to a path makes or replaces. Its directory has to be there. -/
def writable (tree : FileTree) (path : String) (here : List String) :
    Except FileError (List String) := do
  match (← takenSegments path).reverse.dropWhile (· = "") with
  | [] => throw .isADirectory
  | last :: before =>
    let folder ← (before.reverse ++ ["."]).foldlM tree.step (startOf here path)
    if last = "." ∨ last = Path.upSegment ∨ Path.endsInSlash path then throw .isADirectory
    match tree.step folder last with
    | .ok place => if (tree.get? place).any isDir then throw .isADirectory else return place
    | .error .notFound => return folder ++ [last]
    | .error e => throw e

def writeFile (tree : FileTree) (path contents : String) (here : List String) :
    Except FileError FileTree :=
  (tree.writable path here).map fun place => tree.put place (.file (.ofText contents))

/-- The tree in which the file at `source` lies at `target` instead, whatever file was there. -/
def rename (tree : FileTree) (source target : String) (here : List String) :
    Except FileError FileTree := do
  let old ← tree.locate source here
  let new ← tree.writable target here
  match tree.get? old with
  | some node => return (tree.remove old).put new node
  | none => throw .notFound

def delete (tree : FileTree) (path : String) (here : List String) : FileTree :=
  match tree.locate path here with
  | .ok place => tree.remove place
  | .error _ => tree

def folderOf (path : String) : String :=
  match Path.parent? path with
  | some folder => if folder = "" then "." else folder
  | none => "."

/-- The name next to the file `name` that a writer with this stamp uses for itself. -/
def temporaryName (stamp name : String) : String := "." ++ name ++ "." ++ stamp ++ ".tmp"

def atPath {α : Type} (path : String) (r : Except FileError α) : Except Fault α :=
  r.mapError fun e => .unusableFile path e.message

/-- Puts the contents into the file that a path names, through a temporary file in `folder`. -/
def replaceFile (tree : FileTree) (folder path contents stamp : String) (here : List String) :
    FileTree × Except Fault Unit :=
  match Path.fileName? path with
  | none => (tree, .error (.unusableArtifact path "path has no file name"))
  | some name =>
    let temporary := Path.join folder (temporaryName stamp name)
    match atPath temporary (tree.writeFile temporary contents here) with
    | .error e => (tree, .error e)
    | .ok written =>
      match atPath path (written.rename temporary path here) with
      | .error e => (written.delete temporary here, .error e)
      | .ok renamed => (renamed, .ok ())

/-- Puts the contents into the file that a path names, as a whole or not at all; its directory is made
if nothing has that name. -/
def writeAtomic (tree : FileTree) (path contents stamp : String) (here : List String := []) :
    FileTree × Except Fault Unit :=
  let folder := folderOf path
  if tree.pathExists folder here then tree.replaceFile folder path contents stamp here
  else
    match tree.createDirs folder here with
    | (made, .error e) => (made, .error (.unusableFile folder e.message))
    | (made, .ok ()) => made.replaceFile folder path contents stamp here

end ApiSurface.FileTree
