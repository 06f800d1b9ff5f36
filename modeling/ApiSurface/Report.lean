import ApiSurface.Artifact
import ApiSurface.CallGraph.Listing

namespace ApiSurface

open Json

structure Summary where
  files : Nat
  records : Nat
  methods : Nat
  publicRecords : Nat
  documented : Nat
  diagnostics : List Diagnostic
  deriving DecidableEq, Repr

def Diagnostic.text (d : Diagnostic) : String :=
  "- " ++ d.file ++ ":" ++ toString d.line ++ " [" ++ d.kind ++ "] " ++ d.message ++ "\n"

namespace Summary

def ofOutcome (files : Nat) (o : Outcome) : Summary where
  files := files
  records := o.records.length
  methods := o.records.countP (·.isMethod)
  publicRecords := o.records.countP (·.signature.isPublic)
  documented := o.records.countP (!·.docLines.isEmpty)
  diagnostics := o.diagnostics

def countLine (s : Summary) : String :=
  "Parsed " ++ toString s.files ++ " files: " ++ toString s.records ++ " functions (" ++
    toString s.methods ++ " methods, " ++ toString s.publicRecords ++ " public, " ++
    toString s.documented ++ " documented)\n"

def diagnosticLines (s : Summary) : String :=
  if s.diagnostics.isEmpty then "No parse diagnostics.\n"
  else "DIAGNOSTICS (" ++ toString s.diagnostics.length ++ "):\n" ++
    String.join (s.diagnostics.map Diagnostic.text)

def text (s : Summary) : String := s.countLine ++ s.diagnosticLines

def encode (s : Summary) : Value :=
  .ofFields [("files", .ofNat s.files), ("records", .ofNat s.records), ("methods", .ofNat s.methods),
    ("public", .ofNat s.publicRecords), ("documented", .ofNat s.documented),
    ("diagnostics", .ofList Diagnostic.encode s.diagnostics)]

end Summary

namespace DocReport

def signatureText (r : DocReport) (name : String) : String :=
  match r.signatures.get? name with
  | some signature => "  `" ++ signature ++ "`"
  | none => ""

def functionText (r : DocReport) (name : String) (findings : List Finding) : String :=
  "- " ++ r.targetType ++ "::" ++ name ++ r.signatureText name ++ "\n" ++
    String.join (findings.map fun f => "    " ++ f.kindName ++ ": " ++ f.describe ++ "\n")

def unparsedText (r : DocReport) : String :=
  if r.unparsed.isEmpty then ""
  else "UNPARSED ITEMS of " ++ r.targetType ++ " (" ++ toString r.unparsed.length ++ "):\n" ++
    String.join (r.unparsed.map Diagnostic.text)

def suppressedText (r : DocReport) : String :=
  if r.suppressed = 0 then "" else "(" ++ toString r.suppressed ++ " findings suppressed)\n"

def text (r : DocReport) : String :=
  if r.isClean then
    "All " ++ toString r.checked ++ " public methods of " ++ r.targetType ++ " are documented.\n"
  else
    "DOC FINDINGS for " ++ r.targetType ++ " (" ++ toString r.findings.size ++ " functions, " ++
      toString r.totalFindings ++ " findings):\n" ++
      String.join (r.findings.entries.map fun (name, findings) => r.functionText name findings) ++
      r.unparsedText ++ r.suppressedText

end DocReport

def CallGraph.reachableText (start : String) (reachable : NameSet) : String :=
  "REACHABLE FROM " ++ start ++ " (" ++ toString reachable.toList.length ++ "):\n" ++
    String.join (reachable.toList.map fun method => "- " ++ method ++ "\n")

end ApiSurface
