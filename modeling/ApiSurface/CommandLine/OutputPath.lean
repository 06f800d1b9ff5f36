import ApiSurface.FileTree.Path

namespace ApiSurface.CommandLine

inductive OutputPathError where
  | hasNul
  | absolute (path : String)
  | stepsUp (path : String)
  deriving DecidableEq, Repr

def OutputPathError.message : OutputPathError → String
  | .hasNul => "Output path contains null bytes"
  | .absolute path => "Output path must be relative, not absolute: " ++ path
  | .stepsUp path => "Path traversal (..) not allowed in output paths: " ++ path

def outputPath (path : String) : Except OutputPathError String :=
  if Path.hasNul path then .error .hasNul
  else if Path.isAbsolute path then .error (.absolute path)
  else if Path.stepsUp path then .error (.stepsUp path)
  else .ok path

/-- The character itself if it is harmless in a file name, else an underscore. -/
def harmless (c : Char) : Char := if c.isAlphanum || c == '_' || c == '-' then c else '_'

/-- Where the graph of what a method reaches is written if no place is named. -/
def defaultDotFile (method : String) : String := method.map harmless ++ ".dot"

end ApiSurface.CommandLine
