import ApiSurface.Parameter
import ApiSurface.TypeExpr.Progress

namespace ApiSurface.Parameter

open Text TopLevel

/-- The receiver, if `first` is one: modifiers, the word `self`, and perhaps a type. -/
def receiver? (first : List Char) : Except Fault (Option Modifiers) :=
  match Modifiers.read first with
  | .error _ => .ok none
  | .ok (modifiers, rest) =>
    match keyword? selfWord rest with
    | none => .ok none
    | some rest =>
      match trim rest with
      | [] => .ok (some modifiers)
      | ':' :: type => (TypeExpr.ofText type).map fun _ => some modifiers
      | found =>
        let found := String.ofList found
        .error (.malformedParameters s!"unexpected '{found}' after self receiver")

/-- The text after the colon that has to follow a parameter's name. -/
def afterColon (name : String) : List Char → Except Fault (List Char)
  | ':' :: ':' :: _ =>
    .error (.malformedParameters s!"expected ':' after parameter '{name}', found a path")
  | ':' :: rest => .ok rest
  | _ => .error (.malformedParameters s!"expected ':' after parameter '{name}'")

/-- A name that may have `mut` before it. -/
def readName : Reader (List Char) := fun s =>
  let s := (keyword? Modifiers.mutWord s).elim s trimStart
  (readIdentifier s).mapError fun _ =>
    let found := String.ofList (firstLine s)
    .malformedParameters s!"expected a parameter name at '{found}'"

def readTyped : Reader Parameter := fun s => do
  let (name, rest) ← readName s
  let name := String.ofList name
  let rest ← afterColon name (trimStart rest)
  let (type, rest) ← TypeExpr.read rest
  return (.typed name type, rest)

theorem readName_advances : Reader.Advances readName := by
  intro s name rest h
  have h := readIdentifier_advances (mapError_eq_ok_iff.1 h)
  cases hk : keyword? Modifiers.mutWord s with
  | none => simpa [hk] using h
  | some t =>
    have ht : trimStart t <:+ s := (trimStart_suffix t).trans (keyword?_after hk)
    simp only [hk, Option.elim] at h
    exact ⟨h.1.trans ht, Nat.lt_of_lt_of_le h.2 ht.length_le⟩

theorem afterColon_suffix {name : String} {s rest : List Char}
    (h : afterColon name s = .ok rest) : rest <:+ s := by
  unfold afterColon at h
  split at h <;> simp only [Except.ok.injEq, reduceCtorEq] at h
  exact h ▸ List.suffix_cons _ _

theorem readTyped_advances : Reader.Advances readTyped := by
  intro s p rest h
  obtain ⟨⟨name, r⟩, hn, h⟩ := bind_eq_ok_iff.1 h
  obtain ⟨r', hc, h⟩ := bind_eq_ok_iff.1 h
  obtain ⟨⟨type, r''⟩, ht, h⟩ := bind_eq_ok_iff.1 h
  obtain ⟨-, rfl⟩ := Prod.mk.inj (Except.ok.inj h)
  have hn := readName_advances hn
  have hr : r' <:+ r := (afterColon_suffix hc).trans (trimStart_suffix r)
  have ht := TypeExpr.read_advances ht
  exact ⟨(ht.1.trans hr).trans hn.1,
    Nat.lt_trans ht.2 (Nat.lt_of_le_of_lt hr.length_le hn.2)⟩

def readTypedAll (s : List Char) : Except Fault (List Parameter) :=
  if (trimStart s).isEmpty then .ok []
  else
    match _h : readTyped (trimStart s) with
    | .error fault => .error fault
    | .ok (p, rest) =>
      match _hr : trimStart rest with
      | [] => .ok [p]
      | ',' :: rest => (readTypedAll rest).map (p :: ·)
      | found =>
        let found := String.ofList (firstLine found)
        let name := p.name
        .error (.malformedParameters s!"expected ',' after parameter '{name}', found '{found}'")
termination_by s.length
decreasing_by
  have := (readTyped_advances _h).2
  have := length_trimStart_le s
  have := _hr ▸ length_trimStart_le _
  simp only [List.length_cons] at *
  omega

/-- One step through a parameter list. -/
theorem readTypedAll_eq (s : List Char) : readTypedAll s =
    if (trimStart s).isEmpty then .ok [] else readTyped (trimStart s) >>= fun found =>
      match trimStart found.2 with
      | [] => .ok [found.1]
      | ',' :: rest => (readTypedAll rest).map (found.1 :: ·)
      | more =>
        let more := String.ofList (firstLine more)
        let name := found.1.name
        .error (.malformedParameters s!"expected ',' after parameter '{name}', found '{more}'") := by
  rw [readTypedAll]
  split
  · rfl
  · split
    · rename_i hr
      rw [hr]
      rfl
    · rename_i hr
      rw [hr]
      dsimp only [bind, Except.bind]
      split
      · rename_i he
        rw [he]
      · rename_i he
        rw [he]
        rfl
      · simp only

/-- The parameters that a text between parentheses lists. -/
def ofText (s : List Char) : Except Fault (List Parameter) := do
  let (first, more) := splitOnce ',' s
  match ← receiver? first with
  | some modifiers => return .receiver modifiers :: (← readTypedAll (more.getD []))
  | none => readTypedAll s

end ApiSurface.Parameter
