import ApiSurface.Artifact
import ApiSurface.Proofs.Artifact.TypeCodec

namespace ApiSurface

open Json Json.Decoder

theorem texts_undoes (ss : List String) : (list text).Undoes (Value.ofList Value.ofString) ss :=
  list_undoes fun s _ => text_undoes s

namespace FunctionRecord

theorem isWritten_encode {r : FunctionRecord} (hl : r.line < 2 ^ 64) : r.encode.IsWritten := by
  apply Value.isWritten_ofFields
  simp only [List.forall_mem_cons, List.not_mem_nil, IsEmpty.forall_iff, implies_true, and_true]
  exact ⟨.text _, .text _, isWritten_texts _, isWritten_texts _,
    Value.isWritten_ofList fun p _ => p.isWritten_encode,
    Value.isWritten_ofOption fun t _ => t.isWritten_encode, isWritten_texts _, .text _,
    isWritten_text? _, .text _, .number hl⟩

theorem decode_undoes {r : FunctionRecord} (hl : r.line < 2 ^ 64) :
    FunctionRecord.decode.Undoes FunctionRecord.encode r := by
  intro room hroom
  obtain ⟨f, hf, hdecode⟩ := Fields.decode_ofFields hroom (by simp)
  have hparameters : (list Parameter.decode).Undoes (Value.ofList Parameter.encode)
      r.signature.parameters := list_undoes fun p _ => p.decode_undoes
  have hreturned : (option TypeExpr.decode).Undoes (Value.ofOption TypeExpr.encode)
      r.signature.returnType :=
    option_undoes (fun t _ => t.decode_undoes) fun t _ => t.encode_ne_null
  have hname : f.required "name" text = some r.signature.name :=
    hf.required (text_undoes _) (by simp)
  have hvisibility : f.required "visibility" text = some r.signature.visibility :=
    hf.required (text_undoes _) (by simp)
  have hqualifiers : f.required "qualifiers" (list text) = some r.signature.qualifiers :=
    hf.required (texts_undoes _) (by simp)
  have hgenerics : f.required "generics" (list text) = some r.signature.generics :=
    hf.required (texts_undoes _) (by simp)
  have hlist : f.required "parameters" (list Parameter.decode) = some r.signature.parameters :=
    hf.required hparameters (by simp)
  have htype : f.nullable "return_type" TypeExpr.decode = some r.signature.returnType :=
    hf.nullable hreturned (by simp)
  have hdocs : f.required "doc_lines" (list text) = some r.docLines :=
    hf.required (texts_undoes _) (by simp)
  have hbody : f.required "body" text = some r.body := hf.required (text_undoes _) (by simp)
  have howner : f.nullable "owning_struct" text = some r.owner :=
    hf.nullable (option_text_undoes _) (by simp)
  have hfile : f.required "file" text = some r.file := hf.required (text_undoes _) (by simp)
  have hline : f.required "line" nat = some r.line := hf.required (nat_undoes hl) (by simp)
  have hsignature : decodeSignature f = some r.signature := by
    simp only [decodeSignature, hname, hvisibility, hqualifiers, hgenerics, hlist, htype,
      Option.bind_eq_bind, Option.bind_some]
    rfl
  simp only [decode, encode, hdecode, hsignature, hdocs, hbody, howner, hfile, hline,
    Option.bind_eq_bind, Option.bind_some]
  rfl

end FunctionRecord

namespace Diagnostic

theorem isWritten_encode {d : Diagnostic} (hl : d.line < 2 ^ 64) : d.encode.IsWritten := by
  apply Value.isWritten_ofFields
  refine List.forall_mem_append.2 ⟨?_, ?_⟩
  · simp only [List.forall_mem_cons, List.not_mem_nil, IsEmpty.forall_iff, implies_true, and_true]
    exact ⟨.text _, .number hl, .text _, .text _⟩
  · cases d.owner with
    | none => exact List.forall_mem_nil _
    | some owner => exact List.forall_mem_singleton.2 (.text _)

/-- The owner is the last field, or no field at all. -/
theorem nullable_owner {f : Fields} {fields : List (String × Value)} {owner : Option String}
    (hf : f.Are (fields ++ (owner.map fun owner => ("owner", Value.ofString owner)).toList))
    (hn : "owner" ∉ fields.map Prod.fst) : f.nullable "owner" text = some owner := by
  cases owner with
  | none =>
    rw [Option.map_none, Option.toList_none, List.append_nil] at hf
    rw [Fields.nullable, hf.find_of_not_mem hn]
    rfl
  | some owner =>
    exact hf.nullable (option_text_undoes (some owner)) (List.mem_append_right _ (.head _))

theorem decode_undoes {d : Diagnostic} (hl : d.line < 2 ^ 64) :
    Diagnostic.decode.Undoes Diagnostic.encode d := by
  intro room hroom
  obtain ⟨f, hf, hdecode⟩ := Fields.decode_ofFields hroom (by cases d.owner <;> simp)
  have hfile : f.required "file" text = some d.file := hf.required (text_undoes _) (by simp)
  have hline : f.required "line" nat = some d.line := hf.required (nat_undoes hl) (by simp)
  have hkind : f.required "kind" text = some d.kind := hf.required (text_undoes _) (by simp)
  have hmessage : f.required "message" text = some d.message :=
    hf.required (text_undoes _) (by simp)
  have howner : f.nullable "owner" text = some d.owner := nullable_owner hf (by simp)
  simp only [decode, encode, hdecode, hfile, hline, hkind, hmessage, howner, Option.bind_eq_bind,
    Option.bind_some]
  rfl

end Diagnostic

namespace Finding

theorem isWritten_encode (f : Finding) : f.encode.IsWritten := by
  apply Value.isWritten_ofFields
  refine List.forall_mem_cons.2 ⟨.text _, ?_⟩
  cases f.detail? with
  | none => exact List.forall_mem_nil _
  | some detail => exact List.forall_mem_singleton.2 (.text _)

/-- The kind and the detail are the finding. -/
theorem ofKind?_kindName (f : Finding) : ofKind? f.kindName (f.detail?.getD "") = some f := by
  cases f <;> rfl

theorem decodeDetail_find {fields : Fields} {kind : Value} {detail : Option String}
    (hf : fields.Are (("kind", kind) ::
      (detail.map fun detail => ("detail", Value.ofString detail)).toList)) :
    ∃ v, fields.find "detail" = some v ∧ decodeDetail fields.room v = some detail := by
  cases detail with
  | none => exact ⟨none, hf.find_of_not_mem (by simp), rfl⟩
  | some detail =>
    refine ⟨_, hf.find_of_mem (.tail _ (.head _)), ?_⟩
    have htext := text_undoes detail (Nat.zero_le fields.room)
    change (text fields.room (Value.ofString detail)).map some = _
    rw [htext, Option.map_some]

theorem kindDecoder_undoes (members : List (List Char × Value)) (kind : String) :
    (kindDecoder (.object members)).Undoes Value.ofString kind := by
  intro room hroom
  change (text room (Value.ofString kind)).or _ = _
  rw [text_undoes kind hroom, Option.some_or]

theorem decode_undoes (f : Finding) : Finding.decode.Undoes Finding.encode f := by
  intro room hroom
  obtain ⟨fields, hf, hdecode⟩ := Fields.decode_ofFields hroom (by cases f.detail? <;> simp)
  obtain ⟨v, hfind, hdetail⟩ := decodeDetail_find hf
  have hkind : fields.required "kind" (kindDecoder f.encode) = some f.kindName :=
    hf.required (kindDecoder_undoes _ _) (.head _)
  have hfields : decodeFields room f.encode = some fields := hdecode _ _
  simp only [decode, hfields, hkind, hfind, hdetail, ofKind?_kindName, if_pos, Option.bind_eq_bind,
    Option.bind_some]
  rfl

end Finding

theorem NameMap.get?_foldl_insert {β : Type} {entries : List (String × β)}
    (hs : entries.Pairwise fun a b => a.1 < b.1) (m : NameMap β) (key : String) :
    (entries.foldl (fun m e => m.insert e.1 e.2) m).get? key =
      (NameMap.find? key entries).or (m.get? key) := by
  induction entries generalizing m with
  | nil => rfl
  | cons e entries ih =>
    obtain ⟨he, hs⟩ := List.pairwise_cons.1 hs
    rw [List.foldl_cons, ih hs, NameMap.get?_insert, NameMap.find?]
    by_cases hk : key = e.1
    · rw [if_pos hk, if_pos hk, NameMap.find?_eq_none (fun e' he' => hk ▸ he e' he')]
      rfl
    · rw [if_neg hk, if_neg hk]

/-- A map is the map of its entries. -/
theorem NameMap.ofList_entries {β : Type} (m : NameMap β) : NameMap.ofList m.entries = m := by
  apply NameMap.ext_get?
  intro key
  rw [NameMap.ofList, NameMap.get?_foldl_insert m.sorted]
  exact Option.or_none

theorem NameMap.isWritten_encode {β : Type} {encode : β → Value} {m : NameMap β}
    (h : ∀ e ∈ m.entries, (encode e.2).IsWritten) : (m.encode encode).IsWritten :=
  Value.isWritten_ofFields (List.forall_mem_map.2 h)

theorem NameMap.mapM_undoes {β : Type} {decode : Decoder β} {encode : β → Value} {r : Nat}
    {entries : List (String × β)} (h : ∀ e ∈ entries, decode.Undoes encode e.2)
    (hd : ∀ e ∈ entries, (encode e.2).depth ≤ r) :
    (entries.map fun (name, b) => (name, encode b)).mapM
      (fun (name, v) => (decode r v).map (name, ·)) = some entries := by
  induction entries with
  | nil => rfl
  | cons e entries ih =>
    obtain ⟨he, hes⟩ := List.forall_mem_cons.1 h
    obtain ⟨hde, hdes⟩ := List.forall_mem_cons.1 hd
    rw [List.map_cons, List.mapM_cons, ih hes hdes]
    simp only [he hde]
    rfl

theorem NameMap.map_undoes {β : Type} {decode : Decoder β} {encode : β → Value} {m : NameMap β}
    (h : ∀ e ∈ m.entries, decode.Undoes encode e.2) :
    (Decoder.map decode).Undoes (NameMap.encode encode) m := by
  intro room hroom
  obtain ⟨r, rfl, hd⟩ := Value.depth_ofFields_le_iff.1 hroom
  rw [NameMap.encode, Value.ofFields, Decoder.map, named_ofFields, Option.bind_eq_bind,
    Option.bind_some, mapM_undoes h (List.forall_mem_map.1 hd)]
  exact congrArg some m.ofList_entries

/-- All line numbers are numbers of a machine word. -/
def RecordsArtifact.HasWordLines (a : RecordsArtifact) : Prop := ∀ r ∈ a.records, r.line < 2 ^ 64

namespace RecordsArtifact

variable {a : RecordsArtifact}

theorem isWritten_encode (hl : a.HasWordLines) : a.encode.IsWritten :=
  isWritten_pair (.text _) (Value.isWritten_ofList fun _ hr =>
    FunctionRecord.isWritten_encode (hl _ hr))

theorem decode_undoes (hl : a.HasWordLines) :
    RecordsArtifact.decode.Undoes RecordsArtifact.encode a := by
  intro room hroom
  obtain ⟨f, hf, hdecode⟩ := Fields.decode_ofFields hroom (by simp)
  have hrecords : (list FunctionRecord.decode).Undoes (Value.ofList FunctionRecord.encode)
      a.records := list_undoes fun _ hr => FunctionRecord.decode_undoes (hl _ hr)
  have h₁ := hf.required (text_undoes a.digest) (.head _)
  have h₂ := hf.required hrecords (.tail _ (.head _))
  simp only [decode, encode, hdecode, h₁, h₂, Option.bind_eq_bind, Option.bind_some]
  rfl

end RecordsArtifact

/-- All line numbers are numbers of a machine word. -/
def DocArtifact.HasWordLines (a : DocArtifact) : Prop := ∀ d ∈ a.unparsed, d.line < 2 ^ 64

namespace DocArtifact

variable {a : DocArtifact}

theorem isWritten_encode (hl : a.HasWordLines) : a.encode.IsWritten := by
  have hunparsed : ∀ f ∈ unparsedField a.unparsed, f.2.IsWritten := by
    unfold unparsedField
    split
    · exact List.forall_mem_nil _
    · exact List.forall_mem_singleton.2 (Value.isWritten_ofList fun _ hd =>
        Diagnostic.isWritten_encode (hl _ hd))
  apply Value.isWritten_ofFields
  refine List.forall_mem_append.2 ⟨?_, hunparsed⟩
  simp only [List.forall_mem_cons, List.not_mem_nil, IsEmpty.forall_iff, implies_true, and_true]
  exact ⟨.text _, .text _, NameMap.isWritten_encode fun _ _ =>
    Value.isWritten_ofList fun f _ => f.isWritten_encode⟩

/-- The unparsed items are the last field, or no field at all. -/
theorem default_unparsed {f : Fields} {fields : List (String × Value)} {unparsed : List Diagnostic}
    (hf : f.Are (fields ++ unparsedField unparsed)) (hn : "unparsed" ∉ fields.map Prod.fst)
    (hl : ∀ d ∈ unparsed, d.line < 2 ^ 64) :
    f.default "unparsed" (list Diagnostic.decode) [] = some unparsed := by
  cases unparsed with
  | nil =>
    rw [unparsedField, List.isEmpty_nil, if_pos rfl, List.append_nil] at hf
    rw [Fields.default, hf.find_of_not_mem hn]
    rfl
  | cons d unparsed =>
    have hm : ("unparsed", Value.ofList Diagnostic.encode (d :: unparsed)) ∈
        fields ++ unparsedField (d :: unparsed) := List.mem_append_right _ (.head _)
    have h : (list Diagnostic.decode).Undoes (Value.ofList Diagnostic.encode) (d :: unparsed) :=
      list_undoes fun d hd => Diagnostic.decode_undoes (hl d hd)
    rw [Fields.default, hf.find_of_mem hm]
    exact h (hf.within _ hm)

theorem decode_undoes (hl : a.HasWordLines) : DocArtifact.decode.Undoes DocArtifact.encode a := by
  intro room hroom
  have hnames : ((([("digest", .ofString a.digest), ("target_type", .ofString a.targetType),
      ("findings", a.findings.encode (.ofList Finding.encode))] : List (String × Value)) ++
        unparsedField a.unparsed).map Prod.fst).Nodup := by
    unfold unparsedField
    split <;> simp
  obtain ⟨f, hf, hdecode⟩ := Fields.decode_ofFields hroom hnames
  have hfindings : (Decoder.map (list Finding.decode)).Undoes
      (NameMap.encode (Value.ofList Finding.encode)) a.findings :=
    NameMap.map_undoes fun _ _ => list_undoes fun f _ => f.decode_undoes
  have h₁ := hf.required (text_undoes a.digest) (.head _)
  have h₂ := hf.required (text_undoes a.targetType) (.tail _ (.head _))
  have h₃ := hf.required hfindings (.tail _ (.tail _ (.head _)))
  have h₄ := default_unparsed hf (by simp) hl
  simp only [decode, encode, hdecode, h₁, h₂, h₃, h₄, Option.bind_eq_bind, Option.bind_some]
  rfl

/-- A document of findings is four levels deep at most. -/
theorem depth_encode_le (a : DocArtifact) : a.encode.depth ≤ 4 := by
  have hfinding (f : Finding) : f.encode.depth ≤ 1 := by
    refine Value.depth_ofFields_le_iff.2 ⟨0, rfl, ?_⟩
    cases f.detail? <;> simp [Value.ofString, Value.ofText, Value.depth]
  have hdiagnostic (d : Diagnostic) : d.encode.depth ≤ 1 := by
    refine Value.depth_ofFields_le_iff.2 ⟨0, rfl, ?_⟩
    cases d.owner <;> simp [Value.ofString, Value.ofText, Value.ofNat, Value.depth]
  have hfindings : (a.findings.encode (.ofList Finding.encode)).depth ≤ 3 := by
    refine Value.depth_ofFields_le_iff.2 ⟨2, rfl, List.forall_mem_map.2 fun e _ => ?_⟩
    exact Value.depth_array_le_iff.2 ⟨1, rfl, List.forall_mem_map.2 fun f _ => hfinding f⟩
  have hunparsed : ∀ f ∈ unparsedField a.unparsed, f.2.depth ≤ 3 := by
    unfold unparsedField
    split
    · exact List.forall_mem_nil _
    · refine List.forall_mem_singleton.2 (Value.depth_array_le_iff.2 ⟨2, rfl, ?_⟩)
      exact List.forall_mem_map.2 fun d _ => (hdiagnostic d).trans (by decide)
  refine Value.depth_ofFields_le_iff.2 ⟨3, rfl, List.forall_mem_append.2 ⟨?_, hunparsed⟩⟩
  simp only [List.forall_mem_cons, List.not_mem_nil, IsEmpty.forall_iff, implies_true, and_true]
  exact ⟨Nat.zero_le _, Nat.zero_le _, hfindings⟩

end DocArtifact

/-- A value that is written and decoded again, where it lies no deeper than decoding goes. -/
theorem decodeText_render {α : Type} {decode : Decoder α} {encode : α → Value} {a : α}
    (h : decode.Undoes encode a) (hw : (encode a).IsWritten) (hd : (encode a).depth ≤ depthLimit) :
    decodeText decode (encode a).render.toList = some a := by
  rw [decodeText, parse_render hw]
  exact h hd

end ApiSurface
