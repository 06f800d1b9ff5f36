import ApiSurface.Artifact.TypeCodec
import ApiSurface.Doc.Report

namespace ApiSurface

open Json

namespace FunctionRecord

def fieldNames : List String :=
  ["name", "visibility", "qualifiers", "generics", "parameters", "return_type", "doc_lines", "body",
   "owning_struct", "file", "line"]

def encode (r : FunctionRecord) : Value :=
  let s := r.signature
  .ofFields
    [("name", .ofString s.name), ("visibility", .ofString s.visibility),
     ("qualifiers", .ofList .ofString s.qualifiers), ("generics", .ofList .ofString s.generics),
     ("parameters", .ofList Parameter.encode s.parameters),
     ("return_type", .ofOption TypeExpr.encode s.returnType),
     ("doc_lines", .ofList .ofString r.docLines), ("body", .ofString r.body),
     ("owning_struct", .ofOption .ofString r.owner), ("file", .ofString r.file),
     ("line", .ofNat r.line)]

def decodeSignature (f : Fields) : Option Signature := do
  return ⟨← f.required "name" .text, ← f.required "visibility" .text,
    ← f.required "qualifiers" (.list .text), ← f.required "generics" (.list .text),
    ← f.required "parameters" (.list Parameter.decode), ← f.nullable "return_type" TypeExpr.decode⟩

def decode : Decoder FunctionRecord := fun room v => do
  let f ← Fields.decode fieldNames 0 room v
  return ⟨← decodeSignature f, ← f.required "doc_lines" (.list .text), ← f.required "body" .text,
    ← f.nullable "owning_struct" .text, ← f.required "file" .text, ← f.required "line" .nat⟩

end FunctionRecord

namespace Diagnostic

def encode (d : Diagnostic) : Value :=
  .ofFields ([("file", .ofString d.file), ("line", .ofNat d.line), ("kind", .ofString d.kind),
    ("message", .ofString d.message)] ++ (d.owner.map fun owner => ("owner", .ofString owner)).toList)

def decode : Decoder Diagnostic := fun room v => do
  let f ← Fields.decode ["file", "line", "kind", "message", "owner"] 1 room v
  return ⟨← f.required "file" .text, ← f.required "line" .nat, ← f.required "kind" .text,
    ← f.required "message" .text, ← f.nullable "owner" .text⟩

end Diagnostic

namespace Finding

def encode (f : Finding) : Value :=
  .ofFields (("kind", .ofString f.kindName) ::
    (f.detail?.map fun detail => ("detail", .ofString detail)).toList)

/-- The name of the only member of an object, over null. -/
def decodeNamedKind : Decoder String :=
  Decoder.variant fun name _ v => match v with | .null => some name | _ => none

/-- How a finding names its kind: by a text, and where it is an object also by an object. -/
def kindDecoder : (finding : Value) → Decoder String
  | .array _ => .text
  | _ => fun room v => (Decoder.text room v).or (decodeNamedKind room v)

/-- The detail where the value may be missing: a text, or nothing, for which null may stand. -/
def decodeDetail (room : Nat) : Option Value → Option (Option String)
  | none | some .null => some none
  | some v => (Decoder.text room v).map some

/-- The fields of a finding; as an array it has both. -/
def decodeFields : Decoder Fields := Fields.decode ["kind", "detail"] 0

/-- A finding. Kinds without a detail take null for it, the others need a text. -/
def decode : Decoder Finding := fun room v => do
  let f ← decodeFields room v
  let kind ← f.required "kind" (kindDecoder v)
  let detail ← decodeDetail f.room (← f.find "detail")
  let finding ← ofKind? kind (detail.getD "")
  if finding.detail? = detail then return finding else none

end Finding

end ApiSurface
