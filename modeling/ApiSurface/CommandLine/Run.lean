import ApiSurface.Artifact.Store
import ApiSurface.CallGraph.Dot
import ApiSurface.CommandLine.Options
import ApiSurface.CommandLine.OutputPath
import ApiSurface.Config
import ApiSurface.FileTree.Sources
import ApiSurface.Report

namespace ApiSurface.CommandLine

inductive Stop where
  | failed (message : String)
  | refusedPath (error : OutputPathError)
  | refusedQuery (fault : Fault)
  deriving DecidableEq, Repr

namespace Stop

def message : Stop → String
  | .failed message => "Error: " ++ message
  | .refusedPath error => "[ERROR] Invalid output path: " ++ error.message
  | .refusedQuery fault => "[ERROR] Invalid query: " ++ fault.message

def exitCode : Stop → Nat
  | .failed _ => 1
  | .refusedPath _ | .refusedQuery _ => 2

end Stop

/-- The files, and what was printed and warned of so far. -/
structure Session where
  tree : FileTree
  printed : String
  warned : String

/-- A part of a run: it may change the session, and it may stop the run. -/
abbrev Run := ExceptT Stop (StateM Session)

namespace Run

def print (text : String) : Run Unit := modify fun s => { s with printed := s.printed ++ text }

def printLine (text : String) : Run Unit := print (text ++ "\n")

def warnLine (text : String) : Run Unit :=
  modify fun s => { s with warned := s.warned ++ text ++ "\n" }

def files : Run FileTree := return (← get).tree

/-- Keeps the tree that an action on files leaves, and says how the action ended. -/
def change {α : Type} (action : FileTree → FileTree × α) : Run α :=
  modifyGet fun s => ((action s.tree).2, { s with tree := (action s.tree).1 })

/-- The value, or the end of the run with this message. -/
def orFail {α β : Type} (message : String) : Except β α → Run α
  | .ok a => return a
  | .error _ => throw (.failed message)

def orStop {α : Type} : Except Stop α → Run α
  | .ok a => return a
  | .error stop => throw stop

def safePath (path : String) : Run String := orStop ((outputPath path).mapError .refusedPath)

end Run

open Run

/-- The values of the command line, then those of the settings that are not among them. -/
def mergeLists (given configured : List String) : List String :=
  configured.foldl (fun merged item => if merged.contains item then merged else merged ++ [item]) given

structure Project where
  root : String
  config : Config
  sources : List SourceFile
  outcome : Outcome

/-- The directory whose settings count: the path itself, or the one that a file lies in. -/
def configRoot (tree : FileTree) (path : String) (here : List String) : String :=
  if tree.isFileAt path here then (Path.parent? path).getD "." else path

def Project.read (o : Options) (tree : FileTree) (here : List String) : Except Stop Project := do
  let path := o.path.getD "."
  unless tree.pathExists path here do throw (.failed ("Path does not exist: " ++ path))
  let root := configRoot tree path here
  let config ← (tree.loadConfig root here).mapError fun e => Stop.failed e.message
  let config := config.getD .empty
  let some paths := tree.sourcePaths (mergeLists o.exclude config.excluded) path here
    | throw (.failed ("Failed to scan " ++ path))
  let sources ← (tree.readSources paths here).mapError fun e => Stop.failed e.message
  return ⟨root, config, sources, Corpus.parse sources⟩

def dumpRecords (o : Options) (p : Project) (stamp : String) (here : List String) : Run Unit := do
  if let some file := o.dumpRecords then
    let path ← safePath file
    let artifact := ⟨Corpus.digest p.sources, p.outcome.records⟩
    orFail ("Failed to write records to " ++ path)
      (← change fun tree => tree.saveRecords path artifact stamp here)

/-- Writes the graph of what can be reached. That it cannot be written is no more than a warning. -/
def writeDot (path dot : String) (quiet : Bool) (here : List String) : Run Unit := do
  match (← files).writeFile path dot here with
  | .error e => warnLine ("[WARN] DOT write failed to " ++ path ++ ": " ++ e.message)
  | .ok tree =>
    change fun _ => (tree, ())
    unless quiet do printLine ("DOT graph saved to: " ++ path)

def showReachable (o : Options) (p : Project) (json : Bool) (here : List String) : Run Nat := do
  let some start := o.reachable | throw (.failed "--deps requires --reachable METHOD")
  if o.deps.isEmpty then throw (.failed "--reachable requires at least one --deps FILE")
  let graph ← orFail "Failed to load dependency maps" ((← files).loadCallGraph o.deps here)
  match graph.reachableFrom start with
  | .error e => throw (.refusedQuery e)
  | .ok reachable =>
    let index := CallGraph.CategoryIndex.ofRecords p.outcome.records
    let part := graph.subgraph reachable
    if o.graphJson then printLine (part.listing index start).encode.render
    else if json then printLine (CallGraph.encodeReachable start reachable).render
    else print (CallGraph.reachableText start reachable)
    let path ← safePath (o.dotFile.getD (defaultDotFile start))
    writeDot path (String.ofList (part.dotChars index start)) (json || o.graphJson) here
    return 0

def defaultTargetType : String := "Graph"

def defaultArtifact : String := "doc_findings.json"

def docRules (o : Options) (config : Config) : DocRules where
  targetType := (o.targetType.or config.targetType?).getD defaultTargetType
  suppressed := mergeLists o.suppress config.suppressed
  ignored := mergeLists o.ignore config.ignored

/-- Where the findings are to be written: a named file always, the default one only for a report that
is not clean. -/
def artifactPath? (o : Options) (p : Project) (report : DocReport) : Run (Option String) := do
  match o.artifact, p.config.artifact? with
  | some file, _ => return some (← safePath file)
  | none, some file => return some (Path.join p.root (← safePath file))
  | none, none => return if report.isClean then none else some defaultArtifact

def checkDocs (o : Options) (p : Project) (json : Bool) (stamp : String) (here : List String) :
    Run Nat := do
  let rules := docRules o p.config
  if let some problem := Config.unknownKind? "" rules.suppressed then throw (.failed problem)
  let report := rules.checkOutcome p.outcome
  if json then printLine report.encode.render else print report.text
  if let some path ← artifactPath? o p report then
    let artifact := DocArtifact.ofReport (Corpus.digest p.sources) report
    orFail ("Failed to write doc artifact " ++ path)
      (← change fun tree => tree.saveDocFindings path artifact stamp here)
    unless json do printLine ("Findings saved to: " ++ path)
  return report.exitCode

def showSummary (p : Project) (json : Bool) : Run Nat := do
  let summary := Summary.ofOutcome p.sources.length p.outcome
  if json then printLine summary.encode.render else print summary.text
  return 0

/-- A whole run in the working place `here`; its value is the exit code. -/
def run (o : Options) (stamp : String) (here : List String) : Run Nat := do
  let p ← orStop (Project.read o (← files) here)
  let json := o.json || p.config.wantsJson
  dumpRecords o p stamp here
  if o.reachable.isSome || !o.deps.isEmpty then showReachable o p json here
  else if o.checkDocs then checkDocs o p json stamp here
  else showSummary p json

structure Ending where
  exitCode : Nat
  printed : String
  warned : String
  tree : FileTree

/-- What a run leaves of a tree. The stamp names the temporary files of the run. -/
def Options.execute (o : Options) (tree : FileTree) (stamp : String) (here : List String) : Ending :=
  match (run o stamp here).run ⟨tree, "", ""⟩ with
  | (.ok exitCode, s) => ⟨exitCode, s.printed, s.warned, s.tree⟩
  | (.error stop, s) => ⟨stop.exitCode, s.printed, s.warned ++ stop.message ++ "\n", s.tree⟩

def versionLine : String := "siglint-cli 0.1.0\n"

def helpText : String :=
  "Usage: siglint [OPTIONS] [PATH]\n" ++
    String.join (Options.kinds.map fun (name, kind) =>
      match kind with
      | .flag .. => "  --" ++ name ++ "\n"
      | .single .. => "  --" ++ name ++ " <VALUE>\n"
      | .several _ => "  --" ++ name ++ " <VALUE>...\n")

/-- What the program leaves of a tree, by its arguments. -/
def perform (arguments : List String) (tree : FileTree) (stamp : String)
    (here : List String := []) : Except UsageError Ending :=
  (request arguments).map fun
    | .run o => o.execute tree stamp here
    | .version => ⟨0, versionLine, "", tree⟩
    | .help => ⟨0, helpText, "", tree⟩

end ApiSurface.CommandLine
