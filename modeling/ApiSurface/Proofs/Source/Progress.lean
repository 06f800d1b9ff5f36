import ApiSurface.Proofs.Source.Outcome

namespace ApiSurface

open Text

namespace Outcome

/-- The number of records and diagnostics. -/
def size (o : Outcome) : Nat := o.records.length + o.diagnostics.length

theorem size_append (a b : Outcome) : (a ++ b).size = a.size + b.size := by
  simp only [append_eq, size, List.length_append]
  omega

end Outcome

open Outcome

/-- A text that is still to be read, in a block of `owner`, from line `line` on, below the doc lines
`docs`. -/
structure Pending where
  owner : Option String
  line : Nat
  docs : List String
  text : List Char

namespace Pending

def outcome (file : String) (p : Pending) : Outcome := ofText file p.owner p.line p.docs p.text

/-- What several texts hold, one after the other. -/
def outcomes (file : String) : List Pending → Outcome
  | [] => empty
  | p :: more => p.outcome file ++ outcomes file more

/-- How many characters are still to be read. -/
def remaining : List Pending → Nat
  | [] => 0
  | p :: more => p.text.length + remaining more

/-- What a piece on line `line` holds itself, and what is to be read after it: the text in the braces of
a block, and the `rest` behind the piece, from line `lineAfter` on. -/
def afterPiece (file : String) (p : Pending) (line lineAfter : Nat) (rest : List Char) :
    Piece → Outcome × List Pending
  | .docLine text => (empty, [⟨p.owner, lineAfter, p.docs ++ [text], rest⟩])
  | .remark => (empty, [⟨p.owner, lineAfter, p.docs, rest⟩])
  | .openAttribute fault =>
    (ofDiagnostic (.ofFault file line fault p.owner), [⟨p.owner, lineAfter, p.docs, rest⟩])
  | .function item =>
    (ofRecord ⟨item.signature, p.docs, item.body, p.owner, file, line⟩, [⟨p.owner, lineAfter, [], rest⟩])
  | .ownerBlock owner feeds inner =>
    (empty, [⟨some owner, line + feeds, [], inner⟩, ⟨p.owner, lineAfter, [], rest⟩])
  | .rejected fault owner =>
    (ofDiagnostic (.ofFault file line fault (owner <|> p.owner)), [⟨p.owner, lineAfter, [], rest⟩])
  | .other => (empty, [⟨p.owner, lineAfter, [], rest⟩])

/-- Reads one piece: what it holds, and what is to be read next. -/
def step (file : String) (p : Pending) : Outcome × List Pending :=
  let start := trimStart p.text
  let line := lineAt p.line p.text start
  p.afterPiece file line (lineAt line start (Piece.next start).2) (Piece.next start).2
    (Piece.next start).1

/-- Reads the texts piece by piece; nothing if that takes more than so many steps. -/
def run (file : String) : (steps : Nat) → List Pending → Option Outcome
  | _, [] => some empty
  | 0, _ :: _ => none
  | steps + 1, p :: more =>
    if isBlankText p.text then run file steps more
    else (run file steps ((p.step file).2 ++ more)).map ((p.step file).1 ++ ·)

variable {file : String} {p : Pending} {pending : List Pending}

theorem outcomes_append (pending more : List Pending) :
    outcomes file (pending ++ more) = outcomes file pending ++ outcomes file more := by
  induction pending with
  | nil => rfl
  | cons p pending ih => rw [List.cons_append, outcomes, outcomes, ih, append_assoc]

theorem remaining_append (pending more : List Pending) :
    remaining (pending ++ more) = remaining pending + remaining more := by
  induction pending with
  | nil => exact (Nat.zero_add _).symm
  | cons p pending ih => rw [List.cons_append, remaining, remaining, ih, Nat.add_assoc]

/-- A text holds what its first piece holds and what is read after it. -/
theorem outcome_step (h : trimStart p.text ≠ []) :
    p.outcome file = (p.step file).1 ++ outcomes file (p.step file).2 := by
  have hempty (o : Outcome) : Outcome.empty ++ o = o := rfl
  obtain ⟨piece, rest, hn⟩ : ∃ piece rest, Piece.next (trimStart p.text) = (piece, rest) :=
    ⟨_, _, rfl⟩
  rw [outcome, ofText_of_next h hn, step, hn]
  cases piece <;>
    simp only [Outcome.afterPiece, afterPiece, outcomes, outcome, append_empty, hempty]

/-- One step finds at most one item and leaves shorter texts only, the last one being the end of the
text; together they have lost a character for each of them. -/
theorem step_spec (file : String) (h : trimStart p.text ≠ []) :
    (p.step file).1.size ≤ 1 ∧
      remaining (p.step file).2 + (p.step file).2.length ≤ p.text.length ∧
      (∀ next ∈ (p.step file).2, next.text.length < p.text.length) ∧
      ∃ inner rest, (p.step file).2 = inner ++ [rest] ∧ rest.text <:+ p.text := by
  obtain ⟨piece, rest, hn⟩ : ∃ piece rest, Piece.next (trimStart p.text) = (piece, rest) :=
    ⟨_, _, rfl⟩
  obtain ⟨hsuffix, hlt⟩ : rest <:+ trimStart p.text ∧ rest.length < (trimStart p.text).length := by
    simpa only [hn] using Piece.next_advances h
  have htrim := length_trimStart_le p.text
  have hend : rest <:+ p.text := hsuffix.trans (trimStart_suffix p.text)
  have hshorter : rest.length < p.text.length := by omega
  rw [step, hn]
  cases piece with
  | ownerBlock owner feeds inner =>
    -- The braces of the block are in neither text.
    obtain ⟨taken, htaken⟩ := hsuffix
    rw [← htaken] at hn
    obtain ⟨front, hfront, -⟩ := Piece.ownerBlock_of_next hn
    have hlength := congrArg List.length htaken
    simp only [hfront, List.length_append, List.length_cons, List.length_nil] at hlength
    have hinner : inner.length < p.text.length := by omega
    refine ⟨by simp [afterPiece, size, empty], ?_, ?_, [_], _, rfl, hend⟩
    · simp only [afterPiece, remaining, List.length_cons, List.length_nil]
      omega
    · simp [afterPiece, hinner, hshorter]
  | _ =>
    refine ⟨by simp [afterPiece, size, empty, ofDiagnostic, ofRecord], ?_, ?_, [], _, rfl, hend⟩
    · simp only [afterPiece, remaining, List.length_cons, List.length_nil]
      omega
    · simp [afterPiece, hshorter]

/-- Enough steps read everything. A step leaves at most two texts, but as many characters less. -/
theorem run_eq_some {steps : Nat} (h : remaining pending + pending.length ≤ steps) :
    run file steps pending = some (outcomes file pending) := by
  induction steps generalizing pending with
  | zero =>
    obtain rfl : pending = [] := List.eq_nil_of_length_eq_zero (by omega)
    rfl
  | succ steps ih =>
    cases pending with
    | nil => rfl
    | cons p more =>
      have hcons : remaining (p :: more) = p.text.length + remaining more := rfl
      rw [List.length_cons] at h
      rw [run, outcomes]
      by_cases hblank : isBlankText p.text = true
      · rw [if_pos hblank, ih (by omega), outcome, ofText_of_blank (trimStart_eq_nil_iff.2 hblank)]
        rfl
      · have hstart : trimStart p.text ≠ [] := mt trimStart_eq_nil_iff.1 hblank
        obtain ⟨-, hfewer, -⟩ := step_spec file hstart
        have henough : remaining ((p.step file).2 ++ more) + ((p.step file).2 ++ more).length ≤ steps := by
          rw [remaining_append, List.length_append]
          omega
        rw [if_neg hblank, ih henough, outcomes_append, outcome_step hstart, append_assoc]
        rfl

/-- Each record and each diagnostic has a character of its own. -/
theorem size_le_of_run {steps : Nat} {o : Outcome} (h : run file steps pending = some o) :
    o.size ≤ remaining pending := by
  induction steps generalizing pending o with
  | zero =>
    cases pending with
    | nil =>
      obtain rfl := Option.some.inj h
      exact Nat.zero_le _
    | cons p more => cases h
  | succ steps ih =>
    cases pending with
    | nil =>
      obtain rfl := Option.some.inj h
      exact Nat.zero_le _
    | cons p more =>
      have hcons : remaining (p :: more) = p.text.length + remaining more := rfl
      rw [run] at h
      split at h
      · have hmore := ih h
        omega
      · rename_i hblank
        obtain ⟨hone, hfewer, -, inner, rest, hrest, -⟩ :=
          step_spec file (mt trimStart_eq_nil_iff.1 hblank)
        obtain ⟨later, hlater, rfl⟩ := Option.map_eq_some_iff.1 h
        have hmore := ih hlater
        rw [remaining_append] at hmore
        rw [hrest, List.length_append, List.length_singleton, ← hrest] at hfewer
        rw [size_append]
        omega

end Pending

/-- In every state, reading a text that is not all white space is a step and reading what the step
leaves: a proper end of the text, and in front of that the text in the braces of a block, which is
shorter too. So reading ends, after no more steps than the text has characters and one, and finds no
more records and diagnostics together than the text has characters. -/
theorem parseSource_halts (file : String) :
    (∀ p : Pending, isBlankText p.text = false →
      ofText file p.owner p.line p.docs p.text =
          (p.step file).1 ++ Pending.outcomes file (p.step file).2 ∧
        ∃ inner rest, (p.step file).2 = inner ++ [rest] ∧
          rest.text <:+ p.text ∧ rest.text.length < p.text.length ∧
          ∀ block ∈ inner, block.text.length < p.text.length) ∧
    ∀ text : List Char,
      Pending.run file (text.length + 1) [⟨none, 1, [], text⟩] = some (parseSource file text) ∧
        (parseSource file text).records.length + (parseSource file text).diagnostics.length ≤
          text.length := by
  constructor
  · intro p hp
    have hstart : trimStart p.text ≠ [] := by
      rw [Ne, trimStart_eq_nil_iff, hp]
      exact Bool.false_ne_true
    obtain ⟨-, -, hshorter, inner, rest, hnext, hend⟩ := Pending.step_spec file hstart
    have hrest : rest ∈ (p.step file).2 := hnext ▸ List.mem_append_right _ List.mem_cons_self
    have hblocks : ∀ block ∈ inner, block.text.length < p.text.length := fun block hblock =>
      hshorter block (hnext ▸ List.mem_append_left _ hblock)
    exact ⟨Pending.outcome_step hstart, inner, rest, hnext, hend, hshorter rest hrest, hblocks⟩
  · intro text
    have hrun : Pending.run file (text.length + 1) [⟨none, 1, [], text⟩] =
        some (parseSource file text) := by
      rw [Pending.run_eq_some (by simp [Pending.remaining]), Pending.outcomes, Pending.outcomes,
        append_empty]
      rfl
    exact ⟨hrun, Pending.size_le_of_run hrun⟩

theorem parseSource_halts_block :
    let p : Pending := ⟨some "T", 3, [" d"], " impl S \x7b fn f( \x7d fn g".toList⟩
    isBlankText p.text = false ∧
      ofText "a.rs" p.owner p.line p.docs p.text =
          (p.step "a.rs").1 ++ Pending.outcomes "a.rs" (p.step "a.rs").2 ∧
        ∃ inner rest, (p.step "a.rs").2 = inner ++ [rest] ∧
          rest.text <:+ p.text ∧ rest.text.length < p.text.length ∧
          ∀ block ∈ inner, block.text.length < p.text.length := by
  intro p
  have hblank : isBlankText p.text = false := by decide
  exact ⟨hblank, (parseSource_halts "a.rs").1 p hblank⟩

end ApiSurface
