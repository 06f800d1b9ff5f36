import ApiSurface.CommandLine.Run

namespace ApiSurface

/-- The directory of these entries of the disk; links are left out. -/
partial def takeIn (found : Array IO.FS.DirEntry) : IO FileTree := do
  let mut entries := #[]
  for entry in found do
    match (← entry.path.symlinkMetadata).type with
    | .dir => entries := entries.push (entry.fileName, ← takeIn (← entry.path.readDir))
    | .file =>
      let bytes ← IO.FS.readBinFile entry.path
      entries := entries.push (entry.fileName, .file (.stored bytes))
    | _ => pure ()
  return .dir entries.toList

/-- The tree that has nothing but the node at a place. -/
def aloneAt (place : List String) (node : FileTree) : FileTree :=
  place.foldr (fun name below => .dir [(name, below)]) node

/-- Writes one file; its directory is made if it is missing. -/
def putOut (place : List String) (data : FileData) : IO Unit := do
  IO.FS.createDirAll ("/" ++ "/".intercalate place.dropLast)
  IO.FS.writeBinFile ("/" ++ "/".intercalate place) data.toBytes

end ApiSurface

open ApiSurface

def main (arguments : List String) : IO UInt32 := do
  let directory ← IO.currentDir
  let here := Path.steps directory.toString
  -- Of the disk the program sees the working directory and what lies below it.
  let before := aloneAt here (← takeIn (← directory.readDir))
  let stamp := toString (← IO.monoNanosNow)
  match CommandLine.perform arguments before stamp here with
  | .error e =>
    IO.eprintln ("error: " ++ e.message)
    return 2
  | .ok ending =>
    for (place, data) in before.changes ending.tree do
      putOut place data
    IO.print ending.printed
    IO.eprint ending.warned
    return ending.exitCode.toUInt32
