import ApiSurface.Fault

namespace ApiSurface

inductive Bracket where
  | round
  | square
  | curly
  | angle
  deriving DecidableEq, Repr

namespace Bracket

def opener : Bracket → Char
  | .round => '('
  | .square => '['
  | .curly => '\x7b'
  | .angle => '<'

def closer : Bracket → Char
  | .round => ')'
  | .square => ']'
  | .curly => '\x7d'
  | .angle => '>'

def ofOpener? : Char → Option Bracket
  | '(' => some .round
  | '[' => some .square
  | '\x7b' => some .curly
  | '<' => some .angle
  | _ => none

def ofCloser? : Char → Option Bracket
  | ')' => some .round
  | ']' => some .square
  | '\x7d' => some .curly
  | '>' => some .angle
  | _ => none

/-- Whether `c` after `prev` closes a bracket of this kind: the `>` of an arrow `->` does not. -/
def closes (b : Bracket) (prev c : Char) : Bool :=
  c == b.closer && !(b == .angle && prev == '-')

/-- Reads on with `depth + 1` brackets of kind `b` open, up to the closer of the outermost: the text
before that closer and the text after it, or how many brackets are open at the end. -/
def readInside (b : Bracket) : (depth : Nat) → (prev : Char) → List Char →
    Except Nat (List Char × List Char)
  | depth, _, [] => .error (depth + 1)
  | depth, prev, c :: rest =>
    if c = b.opener then (readInside b (depth + 1) c rest).map (Prod.map (c :: ·) id)
    else if b.closes prev c then
      if depth = 0 then .ok ([], rest)
      else (readInside b (depth - 1) c rest).map (Prod.map (c :: ·) id)
    else (readInside b depth c rest).map (Prod.map (c :: ·) id)

/-- The text strictly inside the bracket that `s` begins with, and the text after its closer. -/
def enclosed : List Char → Except Fault (List Char × List Char)
  | [] => .error (.malformedSignature "expected an opening delimiter, found end of input")
  | c :: rest =>
    match ofOpener? c with
    | none => .error (.malformedSignature s!"expected an opening delimiter, found '{c}'")
    | some b => (b.readInside 0 c rest).mapError (.unmatchedBracket c)

theorem ofOpener?_opener (b : Bracket) : ofOpener? b.opener = some b := by cases b <;> rfl

theorem ofOpener?_eq_some_iff {c : Char} {b : Bracket} : ofOpener? c = some b ↔ c = b.opener := by
  constructor
  · unfold ofOpener?
    split <;> simp only [Option.some.injEq, reduceCtorEq, false_implies] <;> rintro rfl <;> rfl
  · rintro rfl
    exact ofOpener?_opener b

theorem eq_of_readInside {b : Bracket} {depth : Nat} {prev : Char} {s inner after : List Char}
    (h : b.readInside depth prev s = .ok (inner, after)) : s = inner ++ b.closer :: after := by
  induction s generalizing depth prev inner with
  | nil => simp [readInside] at h
  | cons c rest ih =>
    have step {d : Nat} (h : (b.readInside d c rest).map (Prod.map (c :: ·) id) = .ok (inner, after)) :
        c :: rest = inner ++ b.closer :: after := by
      cases hr : b.readInside d c rest with
      | error => simp [hr, Except.map] at h
      | ok p =>
        simp only [hr, Except.map, Except.ok.injEq, Prod.map, id_eq, Prod.mk.injEq] at h
        obtain ⟨rfl, rfl⟩ := h
        rw [List.cons_append, ← ih hr]
    rw [readInside] at h
    split at h
    · exact step h
    split at h
    · rename_i hc
      split at h
      · simp only [Except.ok.injEq, Prod.mk.injEq] at h
        obtain ⟨rfl, rfl⟩ := h
        simp only [closes, Bool.and_eq_true, beq_iff_eq] at hc
        simp [hc.1]
      · exact step h
    · exact step h

theorem eq_of_enclosed {s inner after : List Char} (h : enclosed s = .ok (inner, after)) :
    ∃ b : Bracket, s = b.opener :: inner ++ b.closer :: after := by
  cases s with
  | nil => simp [enclosed] at h
  | cons c rest =>
    simp only [enclosed] at h
    split at h
    · simp at h
    · rename_i b hb
      refine ⟨b, ?_⟩
      rw [ofOpener?_eq_some_iff] at hb
      cases hr : b.readInside 0 c rest with
      | error =>
        rw [hr] at h
        exact nomatch h
      | ok p =>
        rw [hr] at h
        obtain rfl := Except.ok.inj h
        rw [eq_of_readInside hr, hb, List.cons_append]

theorem length_of_enclosed {s inner after : List Char} (h : enclosed s = .ok (inner, after)) :
    inner.length + after.length + 2 = s.length := by
  obtain ⟨b, rfl⟩ := eq_of_enclosed h
  simp
  omega

end Bracket

end ApiSurface
