import ApiSurface.Artifact.TypeCodec
import ApiSurface.Proofs.Json.Decode

namespace ApiSurface

open Json Json.Decoder

theorem TypeExpr.encodeAll_eq_map (ts : List TypeExpr) :
    TypeExpr.encodeAll ts = ts.map TypeExpr.encode := by
  induction ts with
  | nil => rfl
  | cons t ts ih => rw [TypeExpr.encodeAll, ih, List.map_cons]

theorem GenericArg.encodeAll_eq_map (as : List GenericArg) :
    GenericArg.encodeAll as = as.map GenericArg.encode := by
  induction as with
  | nil => rfl
  | cons a as ih => rw [GenericArg.encodeAll, ih, List.map_cons]

theorem TypeExpr.array_encodeAll (ts : List TypeExpr) :
    Value.array (TypeExpr.encodeAll ts) = Value.ofList TypeExpr.encode ts := by
  rw [TypeExpr.encodeAll_eq_map, Value.ofList]

theorem GenericArg.array_encodeAll (as : List GenericArg) :
    Value.array (GenericArg.encodeAll as) = Value.ofList GenericArg.encode as := by
  rw [GenericArg.encodeAll_eq_map, Value.ofList]

theorem TypeExpr.encode_fnTrait (kind : String) (params : List TypeExpr) (result : Option TypeExpr) :
    (TypeExpr.fnTrait kind params result).encode = one "FnTrait" (.ofFields
      [("kind", .ofString kind), ("params", .ofList TypeExpr.encode params),
       ("ret", .ofOption TypeExpr.encode result)]) := by
  cases result <;> rw [TypeExpr.encode, TypeExpr.array_encodeAll] <;> rfl

theorem TypeExpr.encode_ne_null (t : TypeExpr) : t.encode ≠ .null := by
  have hone (name : String) (v : Value) : one name v ≠ .null := by simp [one, Value.ofFields]
  cases t with
  | fnTrait kind params result =>
    rw [TypeExpr.encode_fnTrait]
    exact hone _ _
  | _ =>
    rw [TypeExpr.encode]
    exact hone _ _

section Written

theorem isWritten_one {name : String} {v : Value} (h : v.IsWritten) : (one name v).IsWritten :=
  Value.isWritten_ofFields (List.forall_mem_singleton.2 h)

theorem isWritten_pair {a b : String} {v w : Value} (hv : v.IsWritten) (hw : w.IsWritten) :
    (Value.ofFields [(a, v), (b, w)]).IsWritten :=
  Value.isWritten_ofFields (List.forall_mem_cons.2 ⟨hv, List.forall_mem_singleton.2 hw⟩)

theorem isWritten_triple {a b c : String} {u v w : Value} (hu : u.IsWritten) (hv : v.IsWritten)
    (hw : w.IsWritten) : (Value.ofFields [(a, u), (b, v), (c, w)]).IsWritten :=
  Value.isWritten_ofFields (List.forall_mem_cons.2 ⟨hu, List.forall_mem_cons.2
    ⟨hv, List.forall_mem_singleton.2 hw⟩⟩)

theorem isWritten_texts (ss : List String) : (Value.ofList Value.ofString ss).IsWritten :=
  Value.isWritten_ofList fun _ _ => .text _

theorem isWritten_text? (s : Option String) : (Value.ofOption Value.ofString s).IsWritten :=
  Value.isWritten_ofOption fun _ _ => .text _

mutual

theorem TypeExpr.isWritten_encode : (t : TypeExpr) → t.encode.IsWritten
  | .named _ gs => isWritten_one (isWritten_pair (.text _) (.array (GenericArg.isWritten_encodeAll gs)))
  | .reference m l t =>
    isWritten_one (isWritten_triple (.bool m) (isWritten_text? l) (TypeExpr.isWritten_encode t))
  | .implBound bs | .dynBound bs => isWritten_one (.array (GenericArg.isWritten_encodeAll bs))
  | .tuple ts => isWritten_one (.array (TypeExpr.isWritten_encodeAll ts))
  | .slice t => isWritten_one (TypeExpr.isWritten_encode t)
  | .array t _ => isWritten_one (isWritten_pair (TypeExpr.isWritten_encode t) (.text _))
  | .pointer m t => isWritten_one (isWritten_pair (.bool m) (TypeExpr.isWritten_encode t))
  | .fnTrait _ ts none =>
    isWritten_one (isWritten_triple (.text _) (.array (TypeExpr.isWritten_encodeAll ts)) .null)
  | .fnTrait _ ts (some r) =>
    isWritten_one (isWritten_triple (.text _) (.array (TypeExpr.isWritten_encodeAll ts))
      (TypeExpr.isWritten_encode r))

theorem GenericArg.isWritten_encode : (a : GenericArg) → a.encode.IsWritten
  | .type t => isWritten_one (TypeExpr.isWritten_encode t)
  | .lifetime _ => isWritten_one (.text _)
  | .binding _ t => isWritten_one (isWritten_pair (.text _) (TypeExpr.isWritten_encode t))

theorem TypeExpr.isWritten_encodeAll : (ts : List TypeExpr) →
    ∀ v ∈ TypeExpr.encodeAll ts, v.IsWritten
  | [] => List.forall_mem_nil _
  | t :: ts => List.forall_mem_cons.2 ⟨TypeExpr.isWritten_encode t, TypeExpr.isWritten_encodeAll ts⟩

theorem GenericArg.isWritten_encodeAll : (as : List GenericArg) →
    ∀ v ∈ GenericArg.encodeAll as, v.IsWritten
  | [] => List.forall_mem_nil _
  | a :: as =>
    List.forall_mem_cons.2 ⟨GenericArg.isWritten_encode a, GenericArg.isWritten_encodeAll as⟩

end

end Written

theorem depth_one_le_iff {name : String} {v : Value} {room : Nat} :
    (one name v).depth ≤ room ↔ ∃ r, room = r + 1 ∧ v.depth ≤ r := by
  rw [one, Value.depth_ofFields_le_iff]
  simp only [List.forall_mem_singleton]

theorem depth_le_of_one {name : String} {v : Value} {n : Nat} (h : (one name v).depth ≤ n + 1) :
    v.depth ≤ n := by
  obtain ⟨r, hr, hv⟩ := depth_one_le_iff.1 h
  omega

theorem depth_one_pos (name : String) (v : Value) : 0 < (one name v).depth :=
  Nat.succ_pos _

theorem TypeExpr.depth_encode_pos (t : TypeExpr) : 0 < t.encode.depth := by
  cases t with
  | fnTrait kind params result =>
    rw [TypeExpr.encode_fnTrait]
    exact depth_one_pos _ _
  | _ =>
    rw [TypeExpr.encode]
    exact depth_one_pos _ _

theorem GenericArg.depth_encode_pos (a : GenericArg) : 0 < a.encode.depth := by
  cases a <;> rw [GenericArg.encode] <;> exact depth_one_pos _ _

/-- What is written under a name is decoded by that name, with one level less to go. -/
theorem variant_undoes {α : Type} {decode : String → Decoder α} {name : String} {v : Value} {a : α}
    (h : ∀ {room : Nat}, v.depth ≤ room → decode name room v = some a) :
    ∀ {room : Nat}, (one name v).depth ≤ room → variant decode room (one name v) = some a := by
  intro room hroom
  obtain ⟨r, rfl, hv⟩ := depth_one_le_iff.1 hroom
  rw [one, variant_object, h hv]

section Layer

variable {n : Nat} {type : Decoder TypeExpr} {arg : Decoder GenericArg}

theorem option_text_undoes (s : Option String) :
    (option text).Undoes (Value.ofOption Value.ofString) s :=
  option_undoes (fun b _ => text_undoes b) fun _ _ => by simp [Value.ofString, Value.ofText]

/-- One layer of a type, where the decoders inside undo the encoding of what lies at most `n` deep. -/
theorem TypeExpr.decodeLayer_undoes
    (ht : ∀ t : TypeExpr, t.encode.depth ≤ n → type.Undoes TypeExpr.encode t)
    (ha : ∀ a : GenericArg, a.encode.depth ≤ n → arg.Undoes GenericArg.encode a) {t : TypeExpr}
    (hd : t.encode.depth ≤ n + 1) : (TypeExpr.decodeLayer type arg).Undoes TypeExpr.encode t := by
  have htypes {ts : List TypeExpr} (h : (Value.ofList TypeExpr.encode ts).depth ≤ n) :
      (list type).Undoes (Value.ofList TypeExpr.encode) ts :=
    list_undoes fun t hm => ht t (Value.depth_le_of_mem_ofList h hm)
  have hargs {as : List GenericArg} (h : (Value.ofList GenericArg.encode as).depth ≤ n) :
      (list arg).Undoes (Value.ofList GenericArg.encode) as :=
    list_undoes fun a hm => ha a (Value.depth_le_of_mem_ofList h hm)
  intro room hroom
  cases t with
  | named name generics =>
    rw [TypeExpr.encode, GenericArg.array_encodeAll] at hd hroom ⊢
    refine variant_undoes (fun hv => ?_) hroom
    have hgenerics := hargs (Value.depth_le_of_mem_ofFields (depth_le_of_one hd) (.tail _ (.head _)))
    obtain ⟨f, hf, hdecode⟩ := Fields.decode_ofFields hv (by simp)
    have h₁ := hf.required (text_undoes name) (.head _)
    have h₂ := hf.required hgenerics (.tail _ (.head _))
    simp only [hdecode, h₁, h₂, Option.bind_eq_bind, Option.bind_some]
    rfl
  | reference isMutable lifetime inner =>
    rw [TypeExpr.encode] at hd hroom ⊢
    refine variant_undoes (fun hv => ?_) hroom
    have hi := ht inner (Value.depth_le_of_mem_ofFields (depth_le_of_one hd) (.tail _ (.tail _ (.head _))))
    obtain ⟨f, hf, hdecode⟩ := Fields.decode_ofFields hv (by simp)
    have h₁ := hf.required (bool_undoes isMutable) (.head _)
    have h₂ := hf.nullable (option_text_undoes lifetime) (.tail _ (.head _))
    have h₃ := hf.required hi (.tail _ (.tail _ (.head _)))
    simp only [hdecode, h₁, h₂, h₃, Option.bind_eq_bind, Option.bind_some]
    rfl
  | implBound bounds | dynBound bounds =>
    rw [TypeExpr.encode, GenericArg.array_encodeAll] at hd hroom ⊢
    refine variant_undoes (fun hv => ?_) hroom
    simp only [hargs (depth_le_of_one hd) hv, Option.map_some]
  | tuple elements =>
    rw [TypeExpr.encode, TypeExpr.array_encodeAll] at hd hroom ⊢
    refine variant_undoes (fun hv => ?_) hroom
    simp only [htypes (depth_le_of_one hd) hv, Option.map_some]
  | slice inner =>
    rw [TypeExpr.encode] at hd hroom ⊢
    refine variant_undoes (fun hv => ?_) hroom
    simp only [ht inner (depth_le_of_one hd) hv, Option.map_some]
  | array inner length =>
    rw [TypeExpr.encode] at hd hroom ⊢
    refine variant_undoes (fun hv => ?_) hroom
    have hi := ht inner (Value.depth_le_of_mem_ofFields (depth_le_of_one hd) (.head _))
    obtain ⟨f, hf, hdecode⟩ := Fields.decode_ofFields hv (by simp)
    have h₁ := hf.required hi (.head _)
    have h₂ := hf.required (text_undoes length) (.tail _ (.head _))
    simp only [hdecode, h₁, h₂, Option.bind_eq_bind, Option.bind_some]
    rfl
  | pointer isMutable inner =>
    rw [TypeExpr.encode] at hd hroom ⊢
    refine variant_undoes (fun hv => ?_) hroom
    have hi := ht inner (Value.depth_le_of_mem_ofFields (depth_le_of_one hd) (.tail _ (.head _)))
    obtain ⟨f, hf, hdecode⟩ := Fields.decode_ofFields hv (by simp)
    have h₁ := hf.required (bool_undoes isMutable) (.head _)
    have h₂ := hf.required hi (.tail _ (.head _))
    simp only [hdecode, h₁, h₂, Option.bind_eq_bind, Option.bind_some]
    rfl
  | fnTrait kind params result =>
    rw [TypeExpr.encode_fnTrait] at hd hroom ⊢
    refine variant_undoes (fun hv => ?_) hroom
    have hparams := htypes (Value.depth_le_of_mem_ofFields (depth_le_of_one hd) (.tail _ (.head _)))
    have hresult : (option type).Undoes (Value.ofOption TypeExpr.encode) result :=
      option_undoes (fun t hm => ht t (Value.depth_le_of_mem_ofOption
        (Value.depth_le_of_mem_ofFields (depth_le_of_one hd) (.tail _ (.tail _ (.head _)))) hm))
        fun t _ => t.encode_ne_null
    obtain ⟨f, hf, hdecode⟩ := Fields.decode_ofFields hv (by simp)
    have h₁ := hf.required (text_undoes kind) (.head _)
    have h₂ := hf.required hparams (.tail _ (.head _))
    have h₃ := hf.nullable hresult (.tail _ (.tail _ (.head _)))
    simp only [hdecode, h₁, h₂, h₃, Option.bind_eq_bind, Option.bind_some]
    rfl

theorem GenericArg.decodeLayer_undoes
    (ht : ∀ t : TypeExpr, t.encode.depth ≤ n → type.Undoes TypeExpr.encode t) {a : GenericArg}
    (hd : a.encode.depth ≤ n + 1) : (GenericArg.decodeLayer type).Undoes GenericArg.encode a := by
  intro room hroom
  cases a with
  | type t =>
    rw [GenericArg.encode] at hd hroom ⊢
    refine variant_undoes (fun hv => ?_) hroom
    simp only [ht t (depth_le_of_one hd) hv, Option.map_some]
  | lifetime name =>
    rw [GenericArg.encode] at hd hroom ⊢
    refine variant_undoes (fun hv => ?_) hroom
    simp only [text_undoes name hv, Option.map_some]
  | binding name t =>
    rw [GenericArg.encode] at hd hroom ⊢
    refine variant_undoes (fun hv => ?_) hroom
    have hi := ht t (Value.depth_le_of_mem_ofFields (depth_le_of_one hd) (.tail _ (.head _)))
    obtain ⟨f, hf, hdecode⟩ := Fields.decode_ofFields hv (by simp)
    have h₁ := hf.required (text_undoes name) (.head _)
    have h₂ := hf.required hi (.tail _ (.head _))
    simp only [hdecode, h₁, h₂, Option.bind_eq_bind, Option.bind_some]
    rfl

end Layer

/-- As many layers as a type's value is deep are enough for it. -/
theorem TypeExpr.decodeWithin_undoes (n : Nat) :
    (∀ t : TypeExpr, t.encode.depth ≤ n → (TypeExpr.decodeWithin n).Undoes TypeExpr.encode t) ∧
      ∀ a : GenericArg, a.encode.depth ≤ n →
        (GenericArg.decodeWithin n).Undoes GenericArg.encode a := by
  induction n with
  | zero =>
    constructor
    · intro t hd
      exact absurd hd (Nat.not_le_of_gt t.depth_encode_pos)
    · intro a hd
      exact absurd hd (Nat.not_le_of_gt a.depth_encode_pos)
  | succ n ih =>
    exact ⟨fun t hd => TypeExpr.decodeLayer_undoes ih.1 ih.2 hd,
      fun a hd => GenericArg.decodeLayer_undoes ih.1 hd⟩

theorem TypeExpr.decode_undoes (t : TypeExpr) : TypeExpr.decode.Undoes TypeExpr.encode t :=
  fun _ hroom => (TypeExpr.decodeWithin_undoes _).1 t hroom hroom

theorem Modifiers.decode_undoes (m : Modifiers) : Modifiers.decode.Undoes Modifiers.encode m := by
  intro room hroom
  obtain ⟨f, hf, hdecode⟩ := Fields.decode_ofFields hroom (by simp)
  have h₁ := hf.required (bool_undoes m.isReference) (.head _)
  have h₂ := hf.nullable (option_text_undoes m.lifetime) (.tail _ (.head _))
  have h₃ := hf.required (bool_undoes m.isMutable) (.tail _ (.tail _ (.head _)))
  simp only [Modifiers.decode, Modifiers.encode, hdecode, h₁, h₂, h₃, Option.bind_eq_bind, Option.bind_some]
  rfl

namespace Parameter

theorem isWritten_encode (p : Parameter) : p.encode.IsWritten := by
  cases p with
  | receiver m =>
    exact isWritten_pair (.text _) (isWritten_triple (.bool _) (isWritten_text? _) (.bool _))
  | typed name t => exact isWritten_triple (.text _) (.text _) t.isWritten_encode

theorem splitKind_ofFields {kind : String} {fields : List (String × Value)} {room : Nat}
    (hd : (Value.ofFields (("kind", .ofString kind) :: fields)).depth ≤ room)
    (hn : ("kind" :: fields.map Prod.fst).Nodup) :
    splitKind room (.ofFields (("kind", .ofString kind) :: fields)) =
      some (kind, .ofFields (("kind", .ofString kind) :: fields)) := by
  obtain ⟨f, hf, hdecode⟩ := Fields.decode_ofFields hd hn
  have h₁ := hf.required (text_undoes kind) (.head _)
  change ((Fields.decode ["kind"] 0 room (.ofFields (("kind", .ofString kind) :: fields))).bind
    fun f => (f.required "kind" text).bind fun kind => _) = _
  rw [hdecode, Option.bind_some, h₁]
  rfl

theorem decode_undoes (p : Parameter) : Parameter.decode.Undoes Parameter.encode p := by
  intro room hroom
  rw [decode, if_pos (p.isWritten_encode.isMeaningful hroom)]
  cases p with
  | receiver m =>
    obtain ⟨f, hf, hdecode⟩ := Fields.decode_ofFields hroom (by simp)
    have h₁ := hf.required (Modifiers.decode_undoes m) (.tail _ (.head _))
    have hkind := splitKind_ofFields hroom (by simp)
    simp only [encode, hkind, fieldNames, hdecode, h₁, Option.bind_eq_bind, Option.bind_some]
    rfl
  | typed name t =>
    obtain ⟨f, hf, hdecode⟩ := Fields.decode_ofFields hroom (by simp)
    have h₁ := hf.required (text_undoes name) (.tail _ (.head _))
    have h₂ := hf.required (TypeExpr.decode_undoes t) (.tail _ (.tail _ (.head _)))
    have hkind := splitKind_ofFields hroom (by simp)
    simp only [encode, hkind, fieldNames, hdecode, h₁, h₂, Option.bind_eq_bind, Option.bind_some]
    rfl

end Parameter

end ApiSurface
