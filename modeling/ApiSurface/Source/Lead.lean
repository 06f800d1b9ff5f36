import ApiSurface.Record
import ApiSurface.TypeExpr.Progress

namespace ApiSurface

open Text
open ApiSurface.Bracket (enclosed)

structure Lead where
  visibility : String
  qualifiers : List String
  deriving DecidableEq, Repr

namespace Lead

/-- `pub`, perhaps with a scope in parentheses; without it an item is private. -/
def readVisibility : Reader String := fun s =>
  match keyword? "pub".toList s with
  | none => .ok (Signature.privateWord, s)
  | some rest =>
    match trimStart rest with
    | '(' :: scope =>
      (enclosed ('(' :: scope)).map fun (scope, after) =>
        (String.ofList ("pub(".toList ++ trim scope ++ [')']), after)
    | _ => .ok (Signature.publicWord, rest)

def plainWords : List String := ["const", "async", "unsafe", "default"]

/-- What may follow the word `extern`: the name of an interface in quotes. -/
def readInterface (s : List Char) : Except Fault (String × List Char) :=
  match trimStart s with
  | '"' :: rest =>
    match rest.dropWhile (· != '"') with
    | _ :: after =>
      .ok (String.ofList ("extern \"".toList ++ rest.takeWhile (· != '"') ++ ['"']), after)
    | [] => .error (.malformedSignature "unterminated extern ABI string")
  | rest => .ok ("extern", rest)

def qualifier? (s : List Char) : Except Fault (Option (String × List Char)) :=
  match plainWords.findSome? fun word => (keyword? word.toList s).map (word, ·) with
  | some found => .ok (some found)
  | none =>
    match keyword? "extern".toList s with
    | some rest => (readInterface rest).map some
    | none => .ok none

theorem length_of_keyword? {kw s rest : List Char} (hk : kw ≠ []) (h : keyword? kw s = some rest) :
    rest.length < s.length := by
  have hl := List.length_pos_iff.2 hk
  rw [(keyword?_eq_some_iff.1 h).1, List.length_append]
  omega

theorem readInterface_suffix {s rest : List Char} {word : String}
    (h : readInterface s = .ok (word, rest)) : rest <:+ s := by
  unfold readInterface at h
  split at h
  · rename_i body he
    split at h
    · rename_i after hd
      obtain ⟨-, rfl⟩ := Prod.mk.inj (Except.ok.inj h)
      exact (((List.suffix_cons _ _).trans (hd ▸ List.dropWhile_suffix _)).trans
        (List.suffix_cons _ _)).trans (he ▸ trimStart_suffix s)
    · simp at h
  · obtain ⟨-, rfl⟩ := Prod.mk.inj (Except.ok.inj h)
    exact trimStart_suffix s

theorem qualifier?_advances {s rest : List Char} {word : String}
    (h : qualifier? s = .ok (some (word, rest))) : rest <:+ s ∧ rest.length < s.length := by
  unfold qualifier? at h
  split at h
  · rename_i found hf
    obtain rfl := Option.some.inj (Except.ok.inj h)
    obtain ⟨w, hw, hf⟩ := List.exists_of_findSome?_eq_some hf
    obtain ⟨after, hk, he⟩ := Option.map_eq_some_iff.1 hf
    obtain ⟨rfl, rfl⟩ := Prod.mk.inj he
    refine ⟨keyword?_after hk, length_of_keyword? ?_ hk⟩
    rintro hn
    simp only [plainWords, List.mem_cons, List.not_mem_nil, or_false] at hw
    rcases hw with rfl | rfl | rfl | rfl <;> simp at hn
  · split at h
    · rename_i after hk
      obtain ⟨found, hi, he⟩ := map_eq_ok_iff.1 h
      obtain rfl := Option.some.inj he
      have hi := readInterface_suffix hi
      exact ⟨hi.trans (keyword?_after hk),
        Nat.lt_of_le_of_lt hi.length_le (length_of_keyword? (by decide) hk)⟩
    · simp at h

/-- All qualifiers in front, and the text after them without the blanks it begins with. -/
def readQualifiers (s : List Char) : Except Fault (List String × List Char) :=
  match _h : qualifier? (trimStart s) with
  | .error fault => .error fault
  | .ok none => .ok ([], trimStart s)
  | .ok (some (word, rest)) => (readQualifiers rest).map (Prod.map (word :: ·) id)
termination_by s.length
decreasing_by
  have := (qualifier?_advances _h).2
  have := length_trimStart_le s
  omega

def read : Reader Lead := fun s => do
  let (visibility, rest) ← readVisibility s
  let (qualifiers, rest) ← readQualifiers rest
  return (⟨visibility, qualifiers⟩, rest)

theorem readVisibility_keeps : Reader.Keeps readVisibility := by
  intro s v rest h
  unfold readVisibility at h
  split at h
  · obtain ⟨-, rfl⟩ := Prod.mk.inj (Except.ok.inj h)
    exact List.suffix_rfl
  · rename_i after hk
    split at h
    · rename_i scope he
      obtain ⟨⟨inner, after'⟩, hi, hp⟩ := map_eq_ok_iff.1 h
      obtain ⟨-, rfl⟩ := Prod.mk.inj hp
      exact ((enclosed_after hi).1.trans (he ▸ trimStart_suffix after)).trans (keyword?_after hk)
    · obtain ⟨-, rfl⟩ := Prod.mk.inj (Except.ok.inj h)
      exact keyword?_after hk

theorem readQualifiers_keeps : Reader.Keeps readQualifiers := by
  intro s words rest h
  fun_induction readQualifiers s generalizing words with
  | case1 => simp at h
  | case2 s =>
    obtain ⟨-, rfl⟩ := Prod.mk.inj (Except.ok.inj h)
    exact trimStart_suffix s
  | case3 s word after hq ih =>
    obtain ⟨⟨words', after'⟩, hr, hp⟩ := map_eq_ok_iff.1 h
    obtain ⟨-, rfl⟩ := Prod.mk.inj hp
    exact ((ih hr).trans (qualifier?_advances hq).1).trans (trimStart_suffix s)

theorem read_keeps : Reader.Keeps read := by
  intro s lead rest h
  obtain ⟨⟨v, r⟩, hv, h⟩ := bind_eq_ok_iff.1 h
  obtain ⟨⟨q, r'⟩, hq, h⟩ := bind_eq_ok_iff.1 h
  obtain ⟨-, rfl⟩ := Prod.mk.inj (Except.ok.inj h)
  exact (readQualifiers_keeps hq).trans (readVisibility_keeps hv)

end Lead

end ApiSurface
