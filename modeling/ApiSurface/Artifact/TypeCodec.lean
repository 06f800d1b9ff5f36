import ApiSurface.Json.Decode
import ApiSurface.Parameter

namespace ApiSurface

open Json

def one (name : String) (value : Value) : Value := .ofFields [(name, value)]

mutual

def TypeExpr.encode : TypeExpr → Value
  | .named name generics =>
    one "Named" (.ofFields
      [("name", .ofString name), ("generics", .array (GenericArg.encodeAll generics))])
  | .reference isMutable lifetime inner =>
    one "Reference" (.ofFields
      [("is_mutable", .bool isMutable), ("lifetime", .ofOption .ofString lifetime),
       ("inner", inner.encode)])
  | .implBound bounds => one "ImplBound" (.array (GenericArg.encodeAll bounds))
  | .dynBound bounds => one "DynBound" (.array (GenericArg.encodeAll bounds))
  | .tuple elements => one "Tuple" (.array (TypeExpr.encodeAll elements))
  | .slice inner => one "Slice" inner.encode
  | .array inner length =>
    one "Array" (.ofFields [("inner", inner.encode), ("len", .ofString length)])
  | .pointer isMutable inner =>
    one "Pointer" (.ofFields [("is_mutable", .bool isMutable), ("inner", inner.encode)])
  | .fnTrait kind params none =>
    one "FnTrait" (.ofFields
      [("kind", .ofString kind), ("params", .array (TypeExpr.encodeAll params)), ("ret", .null)])
  | .fnTrait kind params (some result) =>
    one "FnTrait" (.ofFields
      [("kind", .ofString kind), ("params", .array (TypeExpr.encodeAll params)),
       ("ret", result.encode)])
termination_by structural t => t

def GenericArg.encode : GenericArg → Value
  | .type type => one "Type" type.encode
  | .lifetime name => one "Lifetime" (.ofString name)
  | .binding name type =>
    one "Binding" (.ofFields [("name", .ofString name), ("ty", type.encode)])
termination_by structural a => a

def TypeExpr.encodeAll : List TypeExpr → List Value
  | [] => []
  | t :: rest => t.encode :: TypeExpr.encodeAll rest
termination_by structural ts => ts

def GenericArg.encodeAll : List GenericArg → List Value
  | [] => []
  | a :: rest => a.encode :: GenericArg.encodeAll rest
termination_by structural as => as

end

/-- One layer of a type, by decoders of the types and arguments inside. -/
def TypeExpr.decodeLayer (type : Decoder TypeExpr) (arg : Decoder GenericArg) : Decoder TypeExpr :=
  Decoder.variant fun kind room v =>
    match kind with
    | "Named" => do
      let f ← Fields.decode ["name", "generics"] 0 room v
      return .named (← f.required "name" .text) (← f.required "generics" (.list arg))
    | "Reference" => do
      let f ← Fields.decode ["is_mutable", "lifetime", "inner"] 0 room v
      return .reference (← f.required "is_mutable" .bool) (← f.nullable "lifetime" .text)
        (← f.required "inner" type)
    | "ImplBound" => (Decoder.list arg room v).map .implBound
    | "DynBound" => (Decoder.list arg room v).map .dynBound
    | "Tuple" => (Decoder.list type room v).map .tuple
    | "Slice" => (type room v).map .slice
    | "Array" => do
      let f ← Fields.decode ["inner", "len"] 0 room v
      return .array (← f.required "inner" type) (← f.required "len" .text)
    | "Pointer" => do
      let f ← Fields.decode ["is_mutable", "inner"] 0 room v
      return .pointer (← f.required "is_mutable" .bool) (← f.required "inner" type)
    | "FnTrait" => do
      let f ← Fields.decode ["kind", "params", "ret"] 0 room v
      return .fnTrait (← f.required "kind" .text) (← f.required "params" (.list type))
        (← f.nullable "ret" type)
    | _ => none

def GenericArg.decodeLayer (type : Decoder TypeExpr) : Decoder GenericArg :=
  Decoder.variant fun kind room v =>
    match kind with
    | "Type" => (type room v).map .type
    | "Lifetime" => (Decoder.text room v).map .lifetime
    | "Binding" => do
      let f ← Fields.decode ["name", "ty"] 0 room v
      return .binding (← f.required "name" .text) (← f.required "ty" type)
    | _ => none

mutual

def TypeExpr.decodeWithin : (n : Nat) → Decoder TypeExpr
  | 0 => fun _ _ => none
  | n + 1 => fun room v =>
    TypeExpr.decodeLayer (TypeExpr.decodeWithin n) (GenericArg.decodeWithin n) room v
termination_by structural n => n

def GenericArg.decodeWithin : (n : Nat) → Decoder GenericArg
  | 0 => fun _ _ => none
  | n + 1 => fun room v => GenericArg.decodeLayer (TypeExpr.decodeWithin n) room v
termination_by structural n => n

end

/-- A type. Each layer enters at least one object, so there are no more layers than levels. -/
def TypeExpr.decode : Decoder TypeExpr := fun room v => TypeExpr.decodeWithin room room v

namespace Modifiers

def encode (m : Modifiers) : Value :=
  .ofFields [("is_reference", .bool m.isReference), ("lifetime", .ofOption .ofString m.lifetime),
    ("is_mutable", .bool m.isMutable)]

def decode : Decoder Modifiers := fun room v => do
  let f ← Fields.decode ["is_reference", "lifetime", "is_mutable"] 0 room v
  return ⟨← f.required "is_reference" .bool, ← f.nullable "lifetime" .text,
    ← f.required "is_mutable" .bool⟩

end Modifiers

namespace Parameter

def encode : Parameter → Value
  | .receiver modifiers => .ofFields [("kind", .ofString "receiver"), ("modifiers", modifiers.encode)]
  | .typed name type =>
    .ofFields [("kind", .ofString "typed"), ("name", .ofString name), ("ty", type.encode)]

def fieldNames : (kind : String) → Option (List String)
  | "receiver" => some ["modifiers"]
  | "typed" => some ["name", "ty"]
  | _ => none

/-- The kind and the value that holds the other fields: an object less its member `kind`, or an array
less its first item. -/
def splitKind (room : Nat) : Value → Option (String × Value)
  | .object members => do
    let f ← Fields.decode ["kind"] 0 room (.object members)
    return (← f.required "kind" .text, .object members)
  | .array (kind :: fields) => do return (← Decoder.text room kind, .array fields)
  | _ => none

/-- The fields are kept until the kind is known, so nothing inside a parameter may be without
meaning, not even what no field asks for. -/
def decode : Decoder Parameter := fun room v =>
  if v.isMeaningful room then do
    let (kind, v) ← splitKind room v
    let f ← Fields.decode (← fieldNames kind) 0 room v
    match kind with
    | "receiver" => return .receiver (← f.required "modifiers" Modifiers.decode)
    | _ => return .typed (← f.required "name" .text) (← f.required "ty" TypeExpr.decode)
  else none

end Parameter

end ApiSurface
