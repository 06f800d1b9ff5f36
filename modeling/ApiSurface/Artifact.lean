import ApiSurface.Artifact.RecordCodec
import ApiSurface.Json.Reader

namespace ApiSurface

open Json

structure RecordsArtifact where
  digest : String
  records : List FunctionRecord
  deriving DecidableEq, Repr

structure DocArtifact where
  digest : String
  targetType : String
  findings : NameMap (List Finding)
  unparsed : List Diagnostic
  deriving DecidableEq, Repr

/-- A map as an object, its members in the order of the names. -/
def NameMap.encode {β : Type} (value : β → Value) (m : NameMap β) : Value :=
  .ofFields (m.entries.map fun (name, b) => (name, value b))

/-- The member for the unparsed items, which is left out if there are none. -/
def unparsedField (unparsed : List Diagnostic) : List (String × Value) :=
  if unparsed.isEmpty then [] else [("unparsed", .ofList Diagnostic.encode unparsed)]

namespace RecordsArtifact

def ofSources (sources : List SourceFile) : RecordsArtifact :=
  ⟨Corpus.digest sources, (Corpus.parse sources).records⟩

def encode (a : RecordsArtifact) : Value :=
  .ofFields [("digest", .ofString a.digest), ("records", .ofList FunctionRecord.encode a.records)]

def decode : Decoder RecordsArtifact := fun room v => do
  let f ← Fields.decode ["digest", "records"] 0 room v
  return ⟨← f.required "digest" .text, ← f.required "records" (.list FunctionRecord.decode)⟩

end RecordsArtifact

namespace DocArtifact

def ofReport (digest : String) (report : DocReport) : DocArtifact :=
  ⟨digest, report.targetType, report.findings, report.unparsed⟩

def encode (a : DocArtifact) : Value :=
  .ofFields ([("digest", .ofString a.digest), ("target_type", .ofString a.targetType),
    ("findings", a.findings.encode (.ofList Finding.encode))] ++ unparsedField a.unparsed)

def decode : Decoder DocArtifact := fun room v => do
  let f ← Fields.decode ["digest", "target_type", "findings", "unparsed"] 1 room v
  return ⟨← f.required "digest" .text, ← f.required "target_type" .text,
    ← f.required "findings" (.map (.list Finding.decode)),
    ← f.default "unparsed" (.list Diagnostic.decode) []⟩

end DocArtifact

/-- The report as it is printed; signatures are not part of it. -/
def DocReport.encode (r : DocReport) : Value :=
  .ofFields ([("target_type", .ofString r.targetType),
    ("findings", r.findings.encode (.ofList Finding.encode)), ("checked", .ofNat r.checked),
    ("suppressed", .ofNat r.suppressed)] ++ unparsedField r.unparsed)

def decodeText {α : Type} (decode : Decoder α) (text : List Char) : Option α := do
  decode depthLimit (← parse text)

end ApiSurface
