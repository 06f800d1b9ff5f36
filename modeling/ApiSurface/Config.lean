import ApiSurface.Doc.Finding
import ApiSurface.FileTree.Basic
import ApiSurface.Toml.Reader

namespace ApiSurface

structure DocsConfig where
  targetType : Option String
  suppress : Option (List String)
  ignore : Option (List String)
  /-- Where to write the findings, seen from the root. -/
  artifact : Option String
  deriving DecidableEq, Repr

structure ScanConfig where
  exclude : Option (List String)
  deriving DecidableEq, Repr

structure OutputConfig where
  format : Option String
  deriving DecidableEq, Repr

structure Config where
  docs : Option DocsConfig
  scan : Option ScanConfig
  output : Option OutputConfig
  deriving DecidableEq, Repr

namespace Config

open Toml

def empty : Config := ⟨none, none, none⟩

def text? : Value → Option String
  | .text text => some text
  | _ => none

def texts? : Value → Option (List String)
  | .array items => items.mapM text?
  | _ => none

/-- The entries of a table, or the items of an array under the given names in order; an array gives
all of them, and what it holds beyond them is not looked at. -/
def settings? (names : List String) : Value → Option Entries
  | .table _ entries => if entries.all fun entry => names.contains entry.1 then some entries else none
  | .array items => if names.length ≤ items.length then some (names.zip items) else none
  | _ => none

def setting {α : Type} (entries : Entries) (name : String) (decode : Value → Option α) :
    Option (Option α) :=
  match entries.lookup name with
  | some value => (decode value).map some
  | none => some none

def docs? (v : Value) : Option DocsConfig := do
  let s ← settings? ["target_type", "suppress", "ignore", "artifact"] v
  return ⟨← setting s "target_type" text?, ← setting s "suppress" texts?,
    ← setting s "ignore" texts?, ← setting s "artifact" text?⟩

def scan? (v : Value) : Option ScanConfig := do
  let s ← settings? ["exclude"] v
  return ⟨← setting s "exclude" texts?⟩

def output? (v : Value) : Option OutputConfig := do
  let s ← settings? ["format"] v
  return ⟨← setting s "format" text?⟩

def ofText? (s : List Char) : Option Config := do
  let s ← settings? ["docs", "scan", "output"] (.table .header (← Toml.parse s))
  return ⟨← setting s "docs" docs?, ← setting s "scan" scan?, ← setting s "output" output?⟩

def formats : List String := ["plain", "json"]

/-- The first of the names that is no kind of finding, in words. -/
def unknownKind? (place : String) (kinds : List String) : Option String :=
  (kinds.find? (!Finding.isKindName ·)).map fun kind =>
    "unknown finding kind '" ++ kind ++ "'" ++ place ++ " (expected one of: " ++
      ", ".intercalate Finding.kinds ++ ")"

def unknownFormat? (format : String) : Option String :=
  if formats.contains format then none
  else some s!"unknown output format '{format}' (expected 'plain' or 'json')"

def suppressed (c : Config) : List String := (c.docs.bind (·.suppress)).getD []

def ignored (c : Config) : List String := (c.docs.bind (·.ignore)).getD []

def excluded (c : Config) : List String := (c.scan.bind (·.exclude)).getD []

def targetType? (c : Config) : Option String := c.docs.bind (·.targetType)

def artifact? (c : Config) : Option String := c.docs.bind (·.artifact)

def format? (c : Config) : Option String := c.output.bind (·.format)

def problem? (c : Config) : Option String :=
  (unknownKind? " in [docs].suppress" c.suppressed).or (c.format?.bind unknownFormat?)

def wantsJson (c : Config) : Bool := c.format? == some "json"

end Config

/-- Why there are no settings although there is a file for them. -/
structure ConfigError where
  message : String
  cause : Option String
  deriving DecidableEq, Repr

def configFile : String := "siglint.toml"

/-- The settings of the project at `root`; none without a file for them. -/
def FileTree.loadConfig (tree : FileTree) (root : String) (here : List String := []) :
    Except ConfigError (Option Config) :=
  let path := Path.join root configFile
  if tree.isFileAt path here then
    match tree.readText path here with
    | .error _ => .error ⟨"Failed to read " ++ path, none⟩
    | .ok text =>
      match Config.ofText? text.toList with
      | none => .error ⟨"Invalid " ++ path, none⟩
      | some config =>
        match config.problem? with
        | some problem => .error ⟨"Invalid " ++ path, some problem⟩
        | none => .ok (some config)
  else .ok none

end ApiSurface
