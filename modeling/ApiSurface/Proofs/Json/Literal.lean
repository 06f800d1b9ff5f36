import ApiSurface.Json.Literal
import ApiSurface.Json.Number
import Mathlib.Algebra.Group.Nat.Defs
import Mathlib.Data.List.TakeWhile

namespace ApiSurface.Json

open Text Text.Scan

section Escape

variable {c : Char} {s rest : List Char}

theorem shortEscapes_lookup :
    ∀ e ∈ shortEscapes, shortEscapes.lookup e.1 = some e.2 ∧ e.1 ≠ 'u' := by decide

theorem hexDigit_spec :
    ∀ n < 16, isHexDigit (hexDigit n) = true ∧ digitValue (hexDigit n) = n := by decide

/-- How a character may be written: by a letter after a backslash, by its number below 32, or as
itself. -/
inductive IsWrittenAs (c : Char) : List Char → Prop
  | letter {e : Char} (short : shortEscapes.lookup e = some c) (other : e ≠ 'u') :
      IsWrittenAs c ['\\', e]
  | number {high low : Char} (hex : [('0' : Char), '0', high, low].all isHexDigit = true)
      (value : numberIn 16 ['0', '0', high, low] = c.toNat) (control : c.toNat < 0x20) :
      IsWrittenAs c ['\\', 'u', '0', '0', high, low]
  | itself (quote : c ≠ '"') (backslash : c ≠ '\\') (plain : ¬ c.toNat < 0x20) : IsWrittenAs c [c]

theorem isWrittenAs_escapeChar (c : Char) : IsWrittenAs c (escapeChar c) := by
  unfold escapeChar
  split
  · rename_i hc
    obtain rfl | rfl := hc
    · exact .letter rfl (by decide)
    · exact .letter rfl (by decide)
  rename_i hc
  split
  · rename_i hcontrol
    split
    · rename_i letter d hf
      have hd : d = c := by simpa using List.find?_some hf
      obtain ⟨hl, hu⟩ := shortEscapes_lookup _ (List.mem_of_find?_eq_some hf)
      exact .letter (hl.trans (congrArg some hd)) hu
    · obtain ⟨hhigh, hhigh'⟩ := hexDigit_spec (c.toNat / 16) (by omega)
      obtain ⟨hlow, hlow'⟩ := hexDigit_spec (c.toNat % 16) (by omega)
      have hzero : isHexDigit '0' = true := rfl
      refine .number ?_ ?_ hcontrol
      · simp only [List.all_cons, List.all_nil, hzero, hhigh, hlow, Bool.and_self]
      · have hzero' : digitValue '0' = 0 := rfl
        simp only [numberIn, List.foldl_cons, List.foldl_nil, hzero', hhigh', hlow']
        omega
  · rename_i hplain
    exact .itself (fun h => hc (.inl h)) (fun h => hc (.inr h)) hplain

theorem scanString_of_isWrittenAs {w : List Char} (h : IsWrittenAs c w) :
    scanString (w ++ rest) = (scanString rest).map (Prod.map (w ++ ·) id) := by
  cases h with
  | letter short other =>
    simp only [List.cons_append, List.nil_append]
    rw [scanString.eq_4 _ _ fun _ _ _ _ _ he _ => other he, short]
    rfl
  | number hex value control =>
    simp only [List.cons_append, List.nil_append]
    rw [scanString, if_pos hex]
  | itself quote backslash plain =>
    rw [List.singleton_append, scanString.eq_5 _ _ quote (fun _ _ _ _ _ hc _ => backslash hc)
      (fun _ _ hc _ => backslash hc), if_neg plain]
    rfl

theorem unescape_of_isWrittenAs {w : List Char} (h : IsWrittenAs c w) :
    unescape (w ++ rest) = (unescape rest).map (c :: ·) := by
  cases h with
  | letter short other =>
    simp only [List.cons_append, List.nil_append]
    rw [unescape.eq_4 _ _ fun _ _ _ _ _ he _ => other he, short]
    cases unescape rest <;> rfl
  | number hex value control =>
    have hhigh : isHighSurrogate c.toNat = false := by
      simp only [isHighSurrogate, Bool.and_eq_false_iff, decide_eq_false_iff_not]
      omega
    have hlow : isLowSurrogate c.toNat = false := by
      simp only [isLowSurrogate, Bool.and_eq_false_iff, decide_eq_false_iff_not]
      omega
    simp only [List.cons_append, List.nil_append]
    rw [unescape.eq_def]
    simp only [value, hhigh, hlow, Char.ofNat_toNat, Bool.false_eq_true, if_false]
  | itself quote backslash plain =>
    rw [List.singleton_append, unescape.eq_5 _ _ (fun _ _ _ _ _ hc _ => backslash hc)
      (fun _ _ hc _ => backslash hc)]

/-- An escaped text ends at the first quote that stands in no escape. -/
theorem scanString_escape (s rest : List Char) :
    scanString (escape s ++ '"' :: rest) = some (escape s, rest) := by
  induction s with
  | nil => rw [escape, List.flatMap_nil, List.nil_append, scanString]
  | cons c s ih =>
    rw [escape, List.flatMap_cons, List.append_assoc,
      scanString_of_isWrittenAs (isWrittenAs_escapeChar c), ← escape, ih]
    rfl

/-- The text is what its escaped form writes. -/
theorem unescape_escape (s : List Char) : unescape (escape s) = some s := by
  induction s with
  | nil => rw [escape, List.flatMap_nil, unescape]
  | cons c s ih =>
    rw [escape, List.flatMap_cons, unescape_of_isWrittenAs (isWrittenAs_escapeChar c), ← escape, ih]
    rfl

end Escape

section Number

variable {n : Nat} {s rest : List Char}

theorem isDigit_of_mem_toDigits : ∀ c ∈ Nat.toDigits 10 n, c.isDigit = true :=
  fun _ hc => Nat.isDigit_of_mem_toDigits (by decide) (by decide) hc

/-- No number but zero is written with a zero in front. -/
theorem head?_toDigits (hn : n ≠ 0) : (Nat.toDigits 10 n).head? ≠ some '0' := by
  induction n using Nat.strongRecOn with
  | _ n ih =>
    rw [Nat.toDigits_eq_if (by decide)]
    split
    · rename_i hlt
      have hdigit : ∀ k < 10, k ≠ 0 → k.digitChar ≠ '0' := by decide
      intro h
      exact hdigit n hlt hn (Option.some.inj h)
    · have hq := ih (n / 10) (by omega) (by omega)
      cases hd : Nat.toDigits 10 (n / 10) with
      | nil => exact absurd hd Nat.toDigits_ne_nil
      | cons c digits =>
        rw [hd] at hq
        exact hq

theorem head?_toDigits_append (n : Nat) (rest : List Char) :
    (Nat.toDigits 10 n ++ rest).head? = (Nat.toDigits 10 n).head? := by
  cases hd : Nat.toDigits 10 n with
  | nil => exact absurd hd Nat.toDigits_ne_nil
  | cons c digits => rfl

theorem numberIn_toDigits (n : Nat) : numberIn 10 (Nat.toDigits 10 n) = n := by
  have hvalue : ∀ (digits : List Char) (k : Nat), (∀ c ∈ digits, c.isDigit = true) →
      digits.foldl (fun n c => 10 * n + digitValue c) k = Nat.ofDigitChars 10 digits k := by
    intro digits
    induction digits with
    | nil => intro k _; rfl
    | cons c digits ih =>
      intro k hd
      obtain ⟨hc, hdigits⟩ := List.forall_mem_cons.1 hd
      rw [List.foldl_cons, Nat.ofDigitChars_cons, ih _ hdigits, digitValue, if_pos hc]
  rw [numberIn, hvalue _ _ isDigit_of_mem_toDigits, Nat.ofDigitChars_ten_toDigits]

theorem wholeNumber?_toDigits (hn : n < 2 ^ 64) : wholeNumber? (Nat.toDigits 10 n) = some n := by
  have hdigits : (Nat.toDigits 10 n).all Char.isDigit = true :=
    List.all_eq_true.2 isDigit_of_mem_toDigits
  rw [wholeNumber?, numberIn_toDigits, if_pos ⟨hdigits, hn⟩]

theorem one_eq_none {p : Char → Bool} (h : ∀ c ∈ s.head?, p c = false) : one p s = none := by
  cases s with
  | nil => rfl
  | cons c s => rw [one, h c rfl, if_neg Bool.false_ne_true]

theorem optional_of_eq_none {scan : Scan} (h : scan s = none) : scan.optional s = some ([], s) := by
  change (scan s).or _ = _
  rw [h]
  rfl

theorem andThen_eq_none {first second : Scan} (h : first s = none) : (first ++ second) s = none := by
  change (first s).bind _ = none
  rw [h]
  rfl

theorem andThen_eq_some {first second : Scan} {a b t : List Char} (ha : first s = some (a, t))
    (hb : second t = some (b, rest)) : (first ++ second) s = some (a ++ b, rest) := by
  change ((first s).bind fun x => (second x.2).bind fun y => some (x.1 ++ y.1, y.2)) = _
  rw [ha, Option.bind_some, hb]
  rfl

section Range

/-- A walk over all digits keeps them all if the number that they write is in range. -/
theorem takeDigits_of_lt {digits : List Char} {k : Nat}
    (h : digits.foldl (fun n c => 10 * n + digitValue c) k < Nat.pow 2 64) :
    takeDigits k digits = (digits.foldl (fun n c => 10 * n + digitValue c) k, []) := by
  have hle (digits : List Char) (k : Nat) :
      k ≤ digits.foldl (fun n c => 10 * n + digitValue c) k := by
    induction digits generalizing k with
    | nil => exact Nat.le_refl k
    | cons c digits ih => exact Nat.le_trans (by omega) (ih (10 * k + digitValue c))
  induction digits generalizing k with
  | nil => rfl
  | cons c digits ih =>
    rw [List.foldl_cons] at h ⊢
    rw [takeDigits, if_pos (Nat.lt_of_le_of_lt (hle digits _) h), ih h]

theorem ofLiteral_toDigits (n : Nat) :
    Decimal.ofLiteral (Nat.toDigits 10 n) = ⟨Nat.toDigits 10 n, [], 0⟩ := by
  have hplain : ∀ c ∈ Nat.toDigits 10 n, (!Decimal.isExponentMark c) = true ∧ (c != '.') = true := by
    intro c hc
    have hdigit := isDigit_of_mem_toDigits c hc
    have hne (d : Char) (hd : d.isDigit = false) : c ≠ d := by
      rintro rfl
      exact Bool.false_ne_true (hd.symm.trans hdigit)
    refine ⟨?_, bne_iff_ne.2 (hne '.' rfl)⟩
    simp only [Decimal.isExponentMark, beq_false_of_ne (hne 'e' rfl), beq_false_of_ne (hne 'E' rfl),
      Bool.or_self, Bool.not_false]
  have hsignificand : (Nat.toDigits 10 n).takeWhile (!Decimal.isExponentMark ·) = Nat.toDigits 10 n :=
    List.takeWhile_eq_self_iff.2 fun c hc => (hplain c hc).1
  have hexponent : (Nat.toDigits 10 n).dropWhile (!Decimal.isExponentMark ·) = [] :=
    List.dropWhile_eq_nil_iff.2 fun c hc => (hplain c hc).1
  have hwhole : (Nat.toDigits 10 n).takeWhile (· != '.') = Nat.toDigits 10 n :=
    List.takeWhile_eq_self_iff.2 fun c hc => (hplain c hc).2
  have hfraction : (Nat.toDigits 10 n).dropWhile (· != '.') = [] :=
    List.dropWhile_eq_nil_iff.2 fun c hc => (hplain c hc).2
  have hdigits : (Nat.toDigits 10 n).filter Char.isDigit = Nat.toDigits 10 n :=
    List.filter_eq_self.2 isDigit_of_mem_toDigits
  simp only [Decimal.ofLiteral, hsignificand, hexponent, hwhole, hfraction, hdigits, List.drop_nil]
  rfl

/-- Rounding moves a number of a machine word by less than that. -/
theorem round53_lt (hn : n < 2 ^ 64) : Decimal.round53 n < 2 ^ 65 := by
  have hlog : n.log2 - 52 ≤ 11 := by
    by_cases h0 : n = 0
    · subst h0
      decide
    · have := (Nat.log2_lt h0).2 hn
      omega
  have hunit : Nat.pow 2 (n.log2 - 52) ≤ 2 ^ 11 := Nat.pow_le_pow_right (by decide) hlog
  have hdiv := Nat.div_mul_le_self n (Nat.pow 2 (n.log2 - 52))
  unfold Decimal.round53 Decimal.roundTo
  dsimp only
  split
  · rw [Nat.add_mul, Nat.one_mul]
    omega
  · omega

theorem isFiniteNumber_toDigits (hn : n < 2 ^ 64) : isFiniteNumber (Nat.toDigits 10 n) = true := by
  have hvalue : (Nat.toDigits 10 n).foldl (fun n c => 10 * n + digitValue c) 0 = n :=
    numberIn_toDigits n
  have htake : takeDigits 0 (Nat.toDigits 10 n) = (n, []) := by
    rw [takeDigits_of_lt (by rw [hvalue]; exact hn), hvalue]
  have hone : Decimal.round53 (Nat.pow 10 (0 : Int).toNat) = 1 := by decide
  have hbound : 2 ^ 65 < Decimal.bound := by decide +kernel
  have hround := round53_lt hn
  have hproduct : Decimal.isFiniteProduct n 0 = true := by
    have hlt : Decimal.round53 n * Decimal.round53 (Nat.pow 10 (0 : Int).toNat) < Decimal.bound := by
      rw [hone, Nat.mul_one]
      exact Nat.lt_trans hround hbound
    simp only [Decimal.isFiniteProduct, hlt, decide_true, Bool.and_true]
    simp
  simp only [isFiniteNumber, ofLiteral_toDigits, htake, takeDigits]
  exact hproduct

end Range

/-- Nothing that goes on a number begins the text. -/
def EndsNumber (s : List Char) : Prop :=
  ∀ c ∈ s.head?, c.isDigit = false ∧ c ≠ '.' ∧ Decimal.isExponentMark c = false

theorem integer_toDigits (hr : EndsNumber rest) :
    integer (Nat.toDigits 10 n ++ rest) = some (Nat.toDigits 10 n, rest) := by
  by_cases hn : n = 0
  · subst hn
    rfl
  · have hzero : char '0' (Nat.toDigits 10 n ++ rest) = none := by
      apply one_eq_none
      intro c hc
      rw [head?_toDigits_append] at hc
      exact beq_false_of_ne fun h => head?_toDigits hn (h ▸ hc)
    have htake : rest.takeWhile Char.isDigit = [] ∧ rest.dropWhile Char.isDigit = rest := by
      cases rest with
      | nil => exact ⟨rfl, rfl⟩
      | cons c rest => simp [hr c rfl]
    have hrun : run Char.isDigit (Nat.toDigits 10 n ++ rest) = some (Nat.toDigits 10 n, rest) := by
      rw [run, List.takeWhile_append_of_pos isDigit_of_mem_toDigits,
        List.dropWhile_append_of_pos isDigit_of_mem_toDigits, htake.1, htake.2, List.append_nil]
      cases hd : Nat.toDigits 10 n with
      | nil => exact absurd hd Nat.toDigits_ne_nil
      | cons c digits => rfl
    change (char '0' _).or (run Char.isDigit _) = _
    rw [hzero, Option.none_or, hrun]

/-- The digits of a number are all of a literal. -/
theorem number_toDigits (n : Nat) (hr : EndsNumber rest) :
    number (Nat.toDigits 10 n ++ rest) = some (Nat.toDigits 10 n, rest) := by
  have hminus : (char '-').optional (Nat.toDigits 10 n ++ rest) =
      some ([], Nat.toDigits 10 n ++ rest) := by
    apply optional_of_eq_none
    apply one_eq_none
    intro c hc
    rw [head?_toDigits_append] at hc
    have hdigit := isDigit_of_mem_toDigits c (List.mem_of_mem_head? hc)
    apply beq_false_of_ne
    rintro rfl
    cases hdigit
  have hfraction : fraction.optional rest = some ([], rest) :=
    optional_of_eq_none (andThen_eq_none (one_eq_none fun c hc => beq_false_of_ne (hr c hc).2.1))
  have hexponent : exponent.optional rest = some ([], rest) :=
    optional_of_eq_none (andThen_eq_none (andThen_eq_none (one_eq_none fun c hc => (hr c hc).2.2)))
  have h := andThen_eq_some (andThen_eq_some (andThen_eq_some hminus (integer_toDigits hr))
    hfraction) hexponent
  rw [List.nil_append, List.append_nil, List.append_nil] at h
  exact h

end Number

end ApiSurface.Json
