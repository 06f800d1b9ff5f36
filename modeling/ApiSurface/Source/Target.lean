import ApiSurface.Source.Function

namespace ApiSurface

open Text TopLevel
open ApiSurface.Bracket (enclosed)

/-- The last segment of the path of a named type, also behind references. -/
def TypeExpr.ownerName? : TypeExpr → Option String
  | .named path _ => some (String.ofList (Signature.lastSegment path.toList))
  | .reference _ _ inner => inner.ownerName?
  | _ => none
termination_by structural t => t

namespace Target

def implWord : List Char := "impl".toList

def forWord : List Char := "for".toList

/-- The text after generic parameters, if angle brackets stand in front. -/
def afterGenerics : List Char → Except Fault (List Char)
  | '<' :: rest => (enclosed ('<' :: rest)).map Prod.snd
  | s => .ok s

/-- The type that a head names: what follows `for` outside brackets, or all of it. -/
def typeText (head : List Char) : List Char :=
  match splitKeyword? forWord head with
  | some (_, type) => type
  | none => head

def ownerOfText (type : List Char) : Except Fault String := do
  match (← TypeExpr.ofText type).ownerName? with
  | some owner => return owner
  | none =>
    let type := String.ofList (trim type)
    throw (.malformedSignature s!"cannot name impl target '{type}'")

/-- The owner of the block, and the text from the brace on that opens the block. -/
def read : Reader String := fun s => do
  let (_, rest) ← Lead.read s
  let rest ← afterKeyword implWord rest
  let rest ← afterGenerics (trimStart rest)
  let (head, rest) := header rest
  match afterWhere (trimStart rest) with
  | '\x7b' :: block => return (← ownerOfText (typeText head), '\x7b' :: block)
  | _ => throw (.malformedSignature "impl block has no body")

theorem afterGenerics_suffix {s rest : List Char} (h : afterGenerics s = .ok rest) :
    rest <:+ s := by
  unfold afterGenerics at h
  split at h
  · obtain ⟨⟨inner, after⟩, hi, rfl⟩ := map_eq_ok_iff.1 h
    exact (enclosed_after hi).1
  · exact Except.ok.inj h ▸ List.suffix_rfl

theorem read_keeps : Reader.Keeps read := by
  intro s owner rest h
  obtain ⟨⟨lead, r₁⟩, h₁, h⟩ := bind_eq_ok_iff.1 h
  obtain ⟨r₂, h₂, h⟩ := bind_eq_ok_iff.1 h
  obtain ⟨r₃, h₃, h⟩ := bind_eq_ok_iff.1 h
  have hs : afterWhere (trimStart (header r₃).2) <:+ s :=
    (afterWhere_suffix _).trans <| (trimStart_suffix _).trans <| (header_suffix r₃).trans <|
    (afterGenerics_suffix h₃).trans <| (trimStart_suffix r₂).trans <|
    (afterKeyword_suffix h₂).trans (Lead.read_keeps h₁)
  dsimp only at h
  split at h
  · rename_i block hb
    obtain ⟨name, -, h⟩ := bind_eq_ok_iff.1 h
    obtain ⟨-, rfl⟩ := Prod.mk.inj (Except.ok.inj h)
    exact hb ▸ hs
  · simp [throw, throwThe, MonadExceptOf.throw] at h

end Target

end ApiSurface
