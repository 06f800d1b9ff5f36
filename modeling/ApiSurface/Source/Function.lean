import ApiSurface.Parameter.Reader
import ApiSurface.Source.Lead

namespace ApiSurface

open Text TopLevel
open ApiSurface.Bracket (enclosed)

/-- A function as its text alone tells it. -/
structure FunctionItem where
  signature : Signature
  body : String
  deriving DecidableEq, Repr

/-- The text after the keyword `kw`, which has to stand in front. -/
def afterKeyword (kw s : List Char) : Except Fault (List Char) :=
  match keyword? kw s with
  | some rest => .ok rest
  | none =>
    let kw := String.ofList kw
    .error (.malformedSignature s!"expected '{kw}'")

/-- The text from the body on, past a `where` clause if one stands in front. -/
def afterWhere (s : List Char) : List Char :=
  match keyword? whereWord s with
  | some clause => trimStart (header clause).2
  | none => s

namespace FunctionItem

def fnWord : List Char := "fn".toList

/-- The name of one generic parameter: a lifetime, or an identifier that may have `const` before it.
What follows the name is dropped. -/
def genericName (piece : List Char) : Except Fault String :=
  match piece with
  | '\'' :: rest => (readLifetime ('\'' :: rest)).map fun (name, _) => String.ofList name
  | piece =>
    (readIdentifier ((keyword? "const".toList piece).elim piece trimStart)).map
      fun (name, _) => String.ofList name

/-- The names of the generic parameters, if angle brackets stand in front. -/
def readGenerics : Reader (List String)
  | '<' :: rest => do
    let (inner, after) ← enclosed ('<' :: rest)
    return (← (split ',' inner).mapM genericName, trimStart after)
  | s => .ok ([], s)

def readParameters (name : String) : Reader (List Parameter)
  | '(' :: rest => do
    let (inner, after) ← enclosed ('(' :: rest)
    return (← Parameter.ofText inner, trimStart after)
  | _ => .error (.malformedSignature s!"expected '(' after fn {name}")

/-- The type after an arrow, which is all the text up to the body or the `where` clause. -/
def readReturnType : Reader (Option TypeExpr)
  | '-' :: '>' :: rest =>
    (TypeExpr.ofText (header rest).1).map fun type => (some type, trimStart (header rest).2)
  | s => .ok (none, s)

def readBody (name : String) : Reader String
  | '\x7b' :: rest => (enclosed ('\x7b' :: rest)).map (Prod.map String.ofList id)
  | _ => .error (.malformedSignature s!"fn {name} has no body")

def read : Reader FunctionItem := fun s => do
  let (lead, rest) ← Lead.read s
  let rest ← afterKeyword fnWord rest
  let (name, rest) ← readIdentifier (trimStart rest)
  let name := String.ofList name
  let (generics, rest) ← readGenerics (trimStart rest)
  let (parameters, rest) ← readParameters name rest
  let (returnType, rest) ← readReturnType rest
  let (body, rest) ← readBody name (afterWhere rest)
  return (⟨⟨name, lead.visibility, lead.qualifiers, generics, parameters, returnType⟩, body⟩, rest)

end FunctionItem

theorem header_suffix (s : List Char) : (header s).2 <:+ s := by
  have go (depth : Nat) (prev : Char) (s : List Char) : (headerFrom depth prev s).2 <:+ s := by
    induction s generalizing depth prev with
    | nil => exact List.suffix_rfl
    | cons c rest ih =>
      rw [headerFrom]
      split
      · exact List.suffix_rfl
      · exact (ih _ _).trans (List.suffix_cons _ _)
  exact go 0 start s

theorem afterKeyword_suffix {kw s rest : List Char} (h : afterKeyword kw s = .ok rest) :
    rest <:+ s := by
  unfold afterKeyword at h
  split at h
  · obtain rfl := Except.ok.inj h
    exact keyword?_after ‹_›
  · simp at h

theorem afterWhere_suffix (s : List Char) : afterWhere s <:+ s := by
  unfold afterWhere
  split
  · exact ((trimStart_suffix _).trans (header_suffix _)).trans (keyword?_after ‹_›)
  · exact List.suffix_rfl

namespace FunctionItem

theorem readGenerics_keeps : Reader.Keeps readGenerics := by
  intro s names rest h
  unfold readGenerics at h
  split at h
  · obtain ⟨⟨inner, after⟩, hi, h⟩ := bind_eq_ok_iff.1 h
    obtain ⟨names', -, h⟩ := bind_eq_ok_iff.1 h
    obtain ⟨-, rfl⟩ := Prod.mk.inj (Except.ok.inj h)
    exact (trimStart_suffix after).trans (enclosed_after hi).1
  · obtain ⟨-, rfl⟩ := Prod.mk.inj (Except.ok.inj h)
    exact List.suffix_rfl

theorem readParameters_keeps (name : String) : Reader.Keeps (readParameters name) := by
  intro s ps rest h
  unfold readParameters at h
  split at h
  · obtain ⟨⟨inner, after⟩, hi, h⟩ := bind_eq_ok_iff.1 h
    obtain ⟨ps', -, h⟩ := bind_eq_ok_iff.1 h
    obtain ⟨-, rfl⟩ := Prod.mk.inj (Except.ok.inj h)
    exact (trimStart_suffix after).trans (enclosed_after hi).1
  · simp at h

theorem readReturnType_keeps : Reader.Keeps readReturnType := by
  intro s t rest h
  unfold readReturnType at h
  split at h
  · obtain ⟨type, -, h⟩ := map_eq_ok_iff.1 h
    obtain ⟨-, rfl⟩ := Prod.mk.inj h
    exact (((trimStart_suffix _).trans (header_suffix _)).trans (List.suffix_cons '>' _)).trans
      (List.suffix_cons '-' _)
  · obtain ⟨-, rfl⟩ := Prod.mk.inj (Except.ok.inj h)
    exact List.suffix_rfl

theorem readBody_advances (name : String) : Reader.Advances (readBody name) := by
  intro s body rest h
  unfold readBody at h
  split at h
  · obtain ⟨⟨inner, after⟩, hi, h⟩ := map_eq_ok_iff.1 h
    obtain ⟨-, rfl⟩ := Prod.mk.inj h
    exact enclosed_after hi
  · simp at h

theorem read_advances : Reader.Advances read := by
  intro s item rest h
  obtain ⟨⟨lead, r₁⟩, h₁, h⟩ := bind_eq_ok_iff.1 h
  obtain ⟨r₂, h₂, h⟩ := bind_eq_ok_iff.1 h
  obtain ⟨⟨name, r₃⟩, h₃, h⟩ := bind_eq_ok_iff.1 h
  obtain ⟨⟨generics, r₄⟩, h₄, h⟩ := bind_eq_ok_iff.1 h
  obtain ⟨⟨parameters, r₅⟩, h₅, h⟩ := bind_eq_ok_iff.1 h
  obtain ⟨⟨returnType, r₆⟩, h₆, h⟩ := bind_eq_ok_iff.1 h
  obtain ⟨⟨body, r₇⟩, h₇, h⟩ := bind_eq_ok_iff.1 h
  obtain ⟨-, rfl⟩ := Prod.mk.inj (Except.ok.inj h)
  have hs : r₆ <:+ s := (readReturnType_keeps h₆).trans <| (readParameters_keeps _ h₅).trans <|
    (readGenerics_keeps h₄).trans <| (trimStart_suffix r₃).trans <|
    (readIdentifier_advances h₃).1.trans <| (trimStart_suffix r₂).trans <|
    (afterKeyword_suffix h₂).trans (Lead.read_keeps h₁)
  have hb := readBody_advances _ h₇
  have hw := (afterWhere_suffix r₆).trans hs
  exact ⟨hb.1.trans hw, Nat.lt_of_lt_of_le hb.2 hw.length_le⟩

end FunctionItem

end ApiSurface
