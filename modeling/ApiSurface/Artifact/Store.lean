import ApiSurface.Artifact
import ApiSurface.CallGraph.Basic
import ApiSurface.FileTree.Write

namespace ApiSurface

open Json

def artifactLimit : Nat := 100000000

namespace FileTree

def noSuchDocument : String := "the contents are no such document"

/-- The value that the contents of a file give. No JSON text begins with a zero byte. -/
def decodeData {α : Type} (decode : Decoder α) (path : String) : FileData → Except Fault α
  | .zeros (_ + 1) => .error (.unusableArtifact path noSuchDocument)
  | data =>
    match data.text? with
    | none => .error (.unusableFile path FileError.invalidUtf8.message)
    | some text =>
      match decodeText decode text.toList with
      | some a => .ok a
      | none => .error (.unusableArtifact path noSuchDocument)

/-- The value in a file of any size. -/
def loadDocument {α : Type} (tree : FileTree) (decode : Decoder α) (path : String)
    (here : List String) : Except Fault α := do
  decodeData decode path (← atPath path (tree.read path here))

/-- The value in a file, unless it is too large. -/
def loadArtifact {α : Type} (tree : FileTree) (decode : Decoder α) (path : String)
    (here : List String) : Except Fault α := do
  let data ← atPath path (tree.read path here)
  if data.size > artifactLimit then
    throw (.unusableArtifact path
      s!"artifact is {data.size} bytes, limit is {artifactLimit}")
  decodeData decode path data

def loadRecords (tree : FileTree) (path : String) (here : List String := []) :
    Except Fault RecordsArtifact :=
  tree.loadArtifact RecordsArtifact.decode path here

def loadDocFindings (tree : FileTree) (path : String) (here : List String := []) :
    Except Fault DocArtifact :=
  tree.loadArtifact DocArtifact.decode path here

def saveRecords (tree : FileTree) (path : String) (a : RecordsArtifact) (stamp : String)
    (here : List String := []) : FileTree × Except Fault Unit :=
  tree.writeAtomic path a.encode.render stamp here

def saveDocFindings (tree : FileTree) (path : String) (a : DocArtifact) (stamp : String)
    (here : List String := []) : FileTree × Except Fault Unit :=
  tree.writeAtomic path a.encode.render stamp here

def loadCallGraph (tree : FileTree) (paths : List String) (here : List String := []) :
    Except Fault CallGraph :=
  paths.foldlM (fun g path => g.merge <$> tree.loadDocument CallGraph.decode path here) .empty

end FileTree

end ApiSurface
