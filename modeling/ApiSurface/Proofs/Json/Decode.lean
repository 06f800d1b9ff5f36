import ApiSurface.Json.Decode
import ApiSurface.Proofs.Json.RoundTrip

namespace ApiSurface

namespace Json

section Depth

mutual

/-- How many arrays and objects lie within one another. -/
def Value.depth : Value → Nat
  | .null | .bool _ | .number _ | .string _ => 0
  | .array items => Value.itemsDepth items + 1
  | .object members => Value.membersDepth members + 1
termination_by structural v => v

def Value.itemsDepth : List Value → Nat
  | [] => 0
  | item :: items => max item.depth (Value.itemsDepth items)
termination_by structural items => items

def Value.membersDepth : List (List Char × Value) → Nat
  | [] => 0
  | (_, value) :: members => max value.depth (Value.membersDepth members)
termination_by structural members => members

end

variable {room : Nat}

theorem Value.itemsDepth_le_iff {items : List Value} :
    Value.itemsDepth items ≤ room ↔ ∀ v ∈ items, v.depth ≤ room := by
  induction items with
  | nil => simp [Value.itemsDepth]
  | cons v items ih => rw [Value.itemsDepth, Nat.max_le, ih, List.forall_mem_cons]

theorem Value.membersDepth_le_iff {members : List (List Char × Value)} :
    Value.membersDepth members ≤ room ↔ ∀ m ∈ members, m.2.depth ≤ room := by
  induction members with
  | nil => simp [Value.membersDepth]
  | cons m members ih => rw [Value.membersDepth, Nat.max_le, ih, List.forall_mem_cons]

theorem Value.depth_array_le_iff {items : List Value} :
    (Value.array items).depth ≤ room ↔ ∃ r, room = r + 1 ∧ ∀ v ∈ items, v.depth ≤ r := by
  rw [Value.depth]
  cases room with
  | zero => simp
  | succ r => simp [Value.itemsDepth_le_iff]

theorem Value.depth_object_le_iff {members : List (List Char × Value)} :
    (Value.object members).depth ≤ room ↔ ∃ r, room = r + 1 ∧ ∀ m ∈ members, m.2.depth ≤ r := by
  rw [Value.depth]
  cases room with
  | zero => simp
  | succ r => simp [Value.membersDepth_le_iff]

theorem Value.depth_ofFields_le_iff {fields : List (String × Value)} :
    (Value.ofFields fields).depth ≤ room ↔ ∃ r, room = r + 1 ∧ ∀ f ∈ fields, f.2.depth ≤ r := by
  rw [Value.ofFields, Value.depth_object_le_iff]
  simp only [List.forall_mem_map]

theorem Value.depth_le_of_mem_ofFields {fields : List (String × Value)} {f : String × Value}
    (h : (Value.ofFields fields).depth ≤ room) (hf : f ∈ fields) : f.2.depth ≤ room := by
  obtain ⟨r, rfl, hfields⟩ := Value.depth_ofFields_le_iff.1 h
  exact Nat.le_succ_of_le (hfields f hf)

theorem Value.depth_le_of_mem_ofList {α : Type} {encode : α → Value} {items : List α} {a : α}
    (h : (Value.ofList encode items).depth ≤ room) (ha : a ∈ items) : (encode a).depth ≤ room := by
  obtain ⟨r, rfl, hitems⟩ := Value.depth_array_le_iff.1 h
  exact Nat.le_succ_of_le (hitems _ (List.mem_map_of_mem ha))

theorem Value.depth_le_of_mem_ofOption {α : Type} {encode : α → Value} {o : Option α} {a : α}
    (h : (Value.ofOption encode o).depth ≤ room) (ha : a ∈ o) : (encode a).depth ≤ room := by
  obtain rfl := ha
  exact h

end Depth

section Written

theorem Value.itemsMeaningful_iff {room : Nat} {items : List Value} :
    Value.itemsMeaningful room items = true ↔ ∀ v ∈ items, v.isMeaningful room = true := by
  induction items with
  | nil => simp [Value.itemsMeaningful]
  | cons v items ih => rw [Value.itemsMeaningful, Bool.and_eq_true, ih, List.forall_mem_cons]

theorem Value.membersMeaningful_iff {room : Nat} {members : List (List Char × Value)} :
    Value.membersMeaningful room members = true ↔
      ∀ m ∈ members, (unescape m.1).isSome = true ∧ m.2.isMeaningful room = true := by
  induction members with
  | nil => simp [Value.membersMeaningful]
  | cons m members ih =>
    rw [Value.membersMeaningful, Bool.and_eq_true, Bool.and_eq_true, ih, List.forall_mem_cons]

/-- What is written has a meaning wherever there is room for it. -/
theorem Value.IsWritten.isMeaningful {v : Value} (hv : v.IsWritten) :
    ∀ {room : Nat}, v.depth ≤ room → v.isMeaningful room = true := by
  induction hv with
  | null => exact fun _ => rfl
  | bool b => exact fun _ => rfl
  | number word => exact fun _ => isFiniteNumber_toDigits word
  | text s =>
    intro room _
    change (unescape (escape s)).isSome = true
    rw [unescape_escape, Option.isSome_some]
  | array each ih =>
    intro room hroom
    obtain ⟨r, rfl, hd⟩ := Value.depth_array_le_iff.1 hroom
    rw [Value.isMeaningful, Bool.and_eq_true, Nat.add_sub_cancel, Value.itemsMeaningful_iff]
    exact ⟨rfl, fun v hv => ih v hv (hd v hv)⟩
  | object names each ih =>
    intro room hroom
    obtain ⟨r, rfl, hd⟩ := Value.depth_object_le_iff.1 hroom
    rw [Value.isMeaningful, Bool.and_eq_true, Nat.add_sub_cancel, Value.membersMeaningful_iff]
    refine ⟨rfl, fun m hm => ⟨?_, ih m hm (hd m hm)⟩⟩
    obtain ⟨s, hs⟩ := names m hm
    rw [hs, unescape_escape, Option.isSome_some]

theorem Value.isWritten_ofFields {fields : List (String × Value)}
    (h : ∀ f ∈ fields, f.2.IsWritten) : (Value.ofFields fields).IsWritten :=
  .object (List.forall_mem_map.2 fun f _ => ⟨f.1.toList, rfl⟩) (List.forall_mem_map.2 h)

theorem Value.isWritten_ofList {α : Type} {encode : α → Value} {items : List α}
    (h : ∀ a ∈ items, (encode a).IsWritten) : (Value.ofList encode items).IsWritten :=
  .array (List.forall_mem_map.2 h)

theorem Value.isWritten_ofOption {α : Type} {encode : α → Value} {a : Option α}
    (h : ∀ b ∈ a, (encode b).IsWritten) : (Value.ofOption encode a).IsWritten := by
  cases a with
  | none => exact .null
  | some b => exact h b rfl

end Written

namespace Decoder

variable {α : Type} {decode : Decoder α} {encode : α → Value}

/-- The decoder gives `a` back, if it may go as deep as the value of `a` lies. -/
def Undoes (decode : Decoder α) (encode : α → Value) (a : α) : Prop :=
  ∀ ⦃room : Nat⦄, (encode a).depth ≤ room → decode room (encode a) = some a

theorem text_undoes (s : String) : text.Undoes Value.ofString s := by
  intro room _
  change (unescape (escape s.toList)).map String.ofList = some s
  rw [unescape_escape, Option.map_some, String.ofList_toList]

theorem bool_undoes (b : Bool) : bool.Undoes Value.bool b := fun _ _ => rfl

theorem nat_undoes {n : Nat} (hn : n < 2 ^ 64) : nat.Undoes Value.ofNat n :=
  fun _ _ => wholeNumber?_toDigits hn

theorem mapM_undoes {room : Nat} {as : List α} (h : ∀ a ∈ as, decode.Undoes encode a)
    (hd : ∀ a ∈ as, (encode a).depth ≤ room) : (as.map encode).mapM (decode room) = some as := by
  induction as with
  | nil => rfl
  | cons a as ih =>
    obtain ⟨ha, has⟩ := List.forall_mem_cons.1 h
    obtain ⟨hda, hdas⟩ := List.forall_mem_cons.1 hd
    rw [List.map_cons, List.mapM_cons, ha hda, ih has hdas]
    rfl

theorem list_undoes {as : List α} (h : ∀ a ∈ as, decode.Undoes encode a) :
    (list decode).Undoes (Value.ofList encode) as := by
  intro room hroom
  obtain ⟨r, rfl, hd⟩ := Value.depth_array_le_iff.1 hroom
  exact mapM_undoes h (List.forall_mem_map.1 hd)

theorem option_undoes {a : Option α} (h : ∀ b ∈ a, decode.Undoes encode b)
    (hn : ∀ b ∈ a, encode b ≠ .null) : (option decode).Undoes (Value.ofOption encode) a := by
  intro room hd
  cases a with
  | none => rfl
  | some b =>
    have hb := h b rfl hd
    change option decode room (encode b) = _
    unfold option
    split
    · rename_i he
      exact absurd he (hn b rfl)
    · rw [hb]
      rfl

theorem named_ofFields (fields : List (String × Value)) :
    named (fields.map fun (name, value) => (escape name.toList, value)) = some fields := by
  induction fields with
  | nil => rfl
  | cons f fields ih =>
    rw [named] at ih ⊢
    rw [List.map_cons, List.mapM_cons, ih]
    simp only [unescape_escape, Option.map_some, String.ofList_toList]
    rfl

theorem variant_object (decode : String → Decoder α) (room : Nat) (name : String) (v : Value) :
    variant decode (room + 1) (.ofFields [(name, v)]) = decode name room v := by
  change ((unescape (escape name.toList)).bind fun s => decode (String.ofList s) room v) = _
  rw [unescape_escape, Option.bind_some, String.ofList_toList]

end Decoder

namespace Fields

variable {α : Type} {f : Fields} {fields : List (String × Value)} {name : String}
  {decode : Decoder α} {encode : α → Value}

/-- The fields that were decoded are those given: of different names, with values that lie no deeper
than may still be entered. -/
structure Are (f : Fields) (fields : List (String × Value)) : Prop where
  members : f.members = fields
  distinct : (fields.map Prod.fst).Nodup
  within : ∀ field ∈ fields, field.2.depth ≤ f.room

/-- An object that is written has the fields it is written with. -/
theorem decode_ofFields {room : Nat} (hd : (Value.ofFields fields).depth ≤ room)
    (hn : (fields.map Prod.fst).Nodup) :
    ∃ f : Fields, f.Are fields ∧
      ∀ names optional, Fields.decode names optional room (.ofFields fields) = some f := by
  obtain ⟨r, rfl, hfields⟩ := Value.depth_ofFields_le_iff.1 hd
  refine ⟨⟨fields, r⟩, ⟨rfl, hn, hfields⟩, fun names optional => ?_⟩
  change (Decoder.named _).map _ = _
  rw [Decoder.named_ofFields, Option.map_some]

theorem Are.find_of_mem {v : Value} (hf : f.Are fields) (hm : (name, v) ∈ fields) :
    f.find name = some (some v) := by
  have hfilter (hn : (fields.map Prod.fst).Nodup) :
      fields.filter (fun field => field.1 == name) = [(name, v)] := by
    clear hf
    induction fields with
    | nil => exact absurd hm List.not_mem_nil
    | cons field fields ih =>
      rw [List.map_cons, List.nodup_cons] at hn
      obtain rfl | hm := List.mem_cons.1 hm
      · have hrest : fields.filter (fun field => field.1 == name) = [] := by
          rw [List.filter_eq_nil_iff]
          intro other ho he
          exact hn.1 (List.mem_map.2 ⟨other, ho, beq_iff_eq.1 he⟩)
        rw [List.filter_cons_of_pos (by exact beq_self_eq_true name), hrest]
      · have hne : field.1 ≠ name := fun he => hn.1 (List.mem_map.2 ⟨(name, v), hm, he.symm⟩)
        rw [List.filter_cons_of_neg (by simpa using hne), ih hm hn.2]
  rw [find, hf.members, hfilter hf.distinct]

theorem Are.find_of_not_mem (hf : f.Are fields) (hn : name ∉ fields.map Prod.fst) :
    f.find name = some none := by
  have hfilter : fields.filter (fun field => field.1 == name) = [] := by
    rw [List.filter_eq_nil_iff]
    intro field hm he
    exact hn (List.mem_map.2 ⟨field, hm, beq_iff_eq.1 he⟩)
  rw [find, hf.members, hfilter]

theorem Are.required {a : α} (hf : f.Are fields) (h : decode.Undoes encode a)
    (hm : (name, encode a) ∈ fields) : f.required name decode = some a := by
  rw [Fields.required, hf.find_of_mem hm]
  exact h (hf.within _ hm)

theorem Are.nullable {a : Option α} (hf : f.Are fields)
    (h : (Decoder.option decode).Undoes (Value.ofOption encode) a)
    (hm : (name, Value.ofOption encode a) ∈ fields) : f.nullable name decode = some a := by
  rw [Fields.nullable, hf.find_of_mem hm]
  exact h (hf.within _ hm)

end Fields

end Json

end ApiSurface
