import ApiSurface.Text.Line

namespace ApiSurface

open Text

inductive Fault where
  /-- The text ended while `depth` brackets opened by `opener` were still open. -/
  | unmatchedBracket (opener : Char) (depth : Nat)
  /-- No identifier stands where one has to; `found` says what does. -/
  | invalidIdentifier (found : String)
  | malformedParameters (problem : String)
  | malformedSignature (problem : String)
  /-- A search was to begin at a method that no dependency map lists. -/
  | unknownStart (method : String)
  | unusableFile (path : String) (problem : String)
  | unusableConfig (path : String) (problem : String)
  | unusableArtifact (path : String) (problem : String)
  deriving DecidableEq, Repr

/-- What a message shows of a text: its first line, cut to 29 characters and an ellipsis if it has
more than 32. -/
def excerpt (s : List Char) : String :=
  let line := firstLine s
  String.ofList (if line.length > 32 then line.take 29 ++ "...".toList else line)

namespace Fault

def noIdentifier (s : List Char) : Fault := .invalidIdentifier (excerpt s)

def kindName : Fault → String
  | .unmatchedBracket .. => "UnmatchedDelimiter"
  | .invalidIdentifier .. => "InvalidIdentifier"
  | .malformedParameters .. => "MalformedArgumentList"
  | .malformedSignature .. => "MalformedSignature"
  | .unknownStart .. => "UnknownStartMethod"
  | .unusableFile .. => "Io"
  | .unusableConfig .. => "Config"
  | .unusableArtifact .. => "Artifact"

def message : Fault → String
  | .unmatchedBracket opener depth => s!"unmatched '{opener}': input ended at depth {depth}"
  | .invalidIdentifier found => s!"invalid identifier at '{found}'"
  | .malformedParameters problem => s!"malformed argument list: {problem}"
  | .malformedSignature problem => s!"malformed signature: {problem}"
  | .unknownStart method => s!"unknown start method '{method}'"
  | .unusableFile path problem => s!"I/O error at {path}: {problem}"
  | .unusableConfig path problem => s!"Config error at {path}: {problem}"
  | .unusableArtifact path problem => s!"Artifact error at {path}: {problem}"

/-- Whether only the item at hand is lost, so that reading goes on after it. -/
def isItemLocal : Fault → Bool
  | .unmatchedBracket .. | .invalidIdentifier .. | .malformedParameters .. | .malformedSignature .. =>
    true
  | _ => false

def path? : Fault → Option String
  | .unusableFile path _ | .unusableConfig path _ | .unusableArtifact path _ => some path
  | _ => none

end Fault

end ApiSurface
