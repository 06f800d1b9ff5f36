import ApiSurface.Json.Number
import ApiSurface.Json.Value
import ApiSurface.NameMap

namespace ApiSurface.Json

/-- How deep arrays and objects may lie within one another. -/
def depthLimit : Nat := 127

/-- A decoder is told how many levels of arrays and objects it may still enter. -/
abbrev Decoder (α : Type) := (room : Nat) → Value → Option α

namespace Decoder

def text : Decoder String := fun _ v =>
  match v with
  | .string literal => (unescape literal).map String.ofList
  | _ => none

def bool : Decoder Bool := fun _ v =>
  match v with
  | .bool b => some b
  | _ => none

def nat : Decoder Nat := fun _ v =>
  match v with
  | .number literal => wholeNumber? literal
  | _ => none

def list {α : Type} (item : Decoder α) : Decoder (List α) := fun room v =>
  match room, v with
  | room + 1, .array items => items.mapM (item room)
  | _, _ => none

def option {α : Type} (value : Decoder α) : Decoder (Option α) := fun room v =>
  match v with
  | .null => some none
  | v => (value room v).map some

/-- The members of an object with their names resolved. -/
def named (members : List (List Char × Value)) : Option (List (String × Value)) :=
  members.mapM fun (name, value) => (unescape name).map fun name => (String.ofList name, value)

/-- A map; of two values for one name the later one counts. -/
def map {α : Type} (value : Decoder α) : Decoder (NameMap α) := fun room v =>
  match room, v with
  | room + 1, .object members => do
    let entries ← (← named members).mapM fun (name, v) => (value room v).map (name, ·)
    return .ofList entries
  | _, _ => none

/-- An object with one member: its name, and its value decoded by the name. -/
def variant {α : Type} (decode : (name : String) → Decoder α) : Decoder α := fun room v =>
  match room, v with
  | room + 1, .object [(name, value)] => do decode (String.ofList (← unescape name)) room value
  | _, _ => none

end Decoder

/-- The fields of a structure, and how many levels their values may still enter. -/
structure Fields where
  members : List (String × Value)
  room : Nat

namespace Fields

/-- The fields of a structure: the members of an object, or the items of an array in the order of
`names`, of which the last `optional` ones may be missing. -/
def decode (names : List String) (optional : Nat) : Decoder Fields := fun room v =>
  match room, v with
  | room + 1, .object members => (Decoder.named members).map (⟨·, room⟩)
  | room + 1, .array items =>
    if items.length ≤ names.length ∧ names.length ≤ items.length + optional then
      some ⟨names.zip items, room⟩
    else none
  | _, _ => none

/-- The value of a field; a field given twice is refused. -/
def find (fields : Fields) (name : String) : Option (Option Value) :=
  match fields.members.filter fun field => field.1 == name with
  | [] => some none
  | [(_, value)] => some (some value)
  | _ => none

variable {α : Type}

def required (fields : Fields) (name : String) (decode : Decoder α) : Option α := do
  decode fields.room (← (← fields.find name))

/-- A field for which null may stand, and which an object may leave out. -/
def nullable (fields : Fields) (name : String) (decode : Decoder α) : Option (Option α) := do
  match ← fields.find name with
  | some value => Decoder.option decode fields.room value
  | none => some none

/-- A field that may be left out, and then is `value`. -/
def default (fields : Fields) (name : String) (decode : Decoder α) (value : α) : Option α := do
  match ← fields.find name with
  | some v => decode fields.room v
  | none => some value

end Fields

mutual

/-- Whether everything inside a value has a meaning of its own: escapes name characters, numbers are
finite, and arrays and objects lie no deeper than `room` levels. -/
def Value.isMeaningful : (room : Nat) → Value → Bool
  | _, .null | _, .bool _ => true
  | _, .number literal => isFiniteNumber literal
  | _, .string literal => (unescape literal).isSome
  | room, .array items => room != 0 && Value.itemsMeaningful (room - 1) items
  | room, .object members => room != 0 && Value.membersMeaningful (room - 1) members
termination_by structural _ v => v

def Value.itemsMeaningful (room : Nat) : List Value → Bool
  | [] => true
  | item :: items => item.isMeaningful room && Value.itemsMeaningful room items
termination_by structural items => items

def Value.membersMeaningful (room : Nat) : List (List Char × Value) → Bool
  | [] => true
  | (name, value) :: members =>
    (unescape name).isSome && value.isMeaningful room && Value.membersMeaningful room members
termination_by structural members => members

end

end ApiSurface.Json
