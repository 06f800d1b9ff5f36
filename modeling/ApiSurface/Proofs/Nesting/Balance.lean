import ApiSurface.Proofs.Nesting
import ApiSurface.Reader

namespace ApiSurface.Bracket

/-- How many characters of `s`, before which stands `prev`, close a bracket of the kind. The `>` of an
arrow `->` does not. -/
def closings (b : Bracket) : (prev : Char) → List Char → Nat
  | _, [] => 0
  | prev, c :: rest =>
    (if c = b.closer ∧ ¬(b = .angle ∧ prev = '-') then 1 else 0) + closings b c rest

def balanceFrom (b : Bracket) (prev : Char) (s : List Char) : Int :=
  s.count b.opener - b.closings prev s

/-- How many brackets of the kind `s` opens more than it closes. -/
def balance (b : Bracket) (s : List Char) : Int := b.balanceFrom TopLevel.start s

/-- In no part in front of `s` more brackets are closed than were open, `depth` of them before. -/
def StaysAbove (b : Bracket) (depth : Int) (prev : Char) (s : List Char) : Prop :=
  ∀ p, p <+: s → 0 ≤ depth + b.balanceFrom prev p

section Balance

variable {b : Bracket} {depth : Int} {prev c : Char} {s : List Char}

theorem balanceFrom_nil (b : Bracket) (prev : Char) : b.balanceFrom prev [] = 0 := rfl

theorem balanceFrom_opener (b : Bracket) (prev : Char) (s : List Char) :
    b.balanceFrom prev (b.opener :: s) = b.balanceFrom b.opener s + 1 := by
  rw [balanceFrom, balanceFrom, closings, if_neg fun h => opener_ne_closer h.1,
    List.count_cons_self]
  omega

theorem balanceFrom_of_closes (hc : b.closes prev c = true) (s : List Char) :
    b.balanceFrom prev (c :: s) = b.balanceFrom c s - 1 := by
  rw [closes_eq_true_iff] at hc
  rw [balanceFrom, balanceFrom, closings, if_pos hc, hc.1,
    List.count_cons_of_ne opener_ne_closer.symm]
  omega

theorem balanceFrom_of_passed (ho : c ≠ b.opener) (hc : ¬b.closes prev c = true) (s : List Char) :
    b.balanceFrom prev (c :: s) = b.balanceFrom c s := by
  rw [closes_eq_true_iff] at hc
  rw [balanceFrom, balanceFrom, closings, if_neg hc, List.count_cons_of_ne ho, Nat.zero_add]

theorem balanceFrom_append (b : Bracket) (prev : Char) (s t : List Char) :
    b.balanceFrom prev (s ++ t) = b.balanceFrom prev s + b.balanceFrom (lastAfter prev s) t := by
  have hclosings : b.closings prev (s ++ t) =
      b.closings prev s + b.closings (lastAfter prev s) t := by
    induction s generalizing prev with
    | nil => rw [List.nil_append, closings, Nat.zero_add, lastAfter]
    | cons c s ih => rw [List.cons_append, closings, closings, ih, lastAfter, Nat.add_assoc]
  rw [balanceFrom, balanceFrom, balanceFrom, hclosings, List.count_append]
  omega

/-- Only a hyphen in front of a text matters to it. -/
theorem balanceFrom_eq_balance (b : Bracket) (hp : prev ≠ '-') (s : List Char) :
    b.balanceFrom prev s = b.balance s := by
  cases s with
  | nil => rfl
  | cons c s =>
    have hstart : TopLevel.start ≠ '-' := by decide
    simp only [balance, balanceFrom, closings, hp, hstart, and_false, not_false_eq_true, and_true]

/-- Of brackets that are no angles every closer counts. -/
theorem balanceFrom_of_ne_angle (hb : b ≠ .angle) (prev : Char) (s : List Char) :
    b.balanceFrom prev s = s.count b.opener - s.count b.closer := by
  have hclosings : b.closings prev s = s.count b.closer := by
    induction s generalizing prev with
    | nil => rfl
    | cons c s ih =>
      rw [closings, ih c]
      by_cases hc : c = b.closer
      · rw [if_pos ⟨hc, fun h => hb h.1⟩, hc, List.count_cons_self, Nat.add_comm]
      · rw [if_neg fun h => hc h.1, List.count_cons_of_ne hc, Nat.zero_add]
  rw [balanceFrom, hclosings]

theorem StaysAbove.nil (hd : 0 ≤ depth) (b : Bracket) (prev : Char) :
    b.StaysAbove depth prev [] := by
  intro p hp
  rw [List.prefix_nil.1 hp, balanceFrom_nil]
  omega

/-- The rest begins where the first character has left the balance. -/
theorem StaysAbove.cons {depth' : Int} (h : b.StaysAbove depth' c s) (hd : 0 ≤ depth)
    (hc : ∀ p, depth + b.balanceFrom prev (c :: p) = depth' + b.balanceFrom c p) :
    b.StaysAbove depth prev (c :: s) := by
  intro p hp
  cases p with
  | nil => rwa [balanceFrom_nil, Int.add_zero]
  | cons c' p =>
    obtain ⟨rfl, hrest⟩ := List.cons_prefix_cons.1 hp
    rw [hc]
    exact h p hrest

/-- Where the balance falls too low, it has gone past every text in which it stays above. -/
theorem StaysAbove.concat_prefix {p q : List Char} (h : b.StaysAbove depth prev p)
    (hp : p ++ [c] <+: s) (hq : q <+: s) (hlow : depth + b.balanceFrom prev q < 0) :
    p ++ [c] <+: q := by
  obtain hle | hle := List.prefix_or_prefix_of_prefix hp hq
  · exact hle
  obtain rfl | hle := List.prefix_concat_iff.1 hle
  · exact List.prefix_rfl
  · have hq := h q hle
    omega

end Balance

/-- What reading on with `depth + 1` open brackets finds: the closer of the outermost, in front of which
the others are closed, or how many are open at the end. -/
inductive IsReadInside (b : Bracket) (depth : Nat) (prev : Char) (s : List Char) :
    Except Nat (List Char × List Char) → Prop
  | closed {inner after : List Char} (cut : s = inner ++ b.closer :: after)
      (closes : b.closes (lastAfter prev inner) b.closer = true)
      (even : depth + b.balanceFrom prev inner = 0) (above : b.StaysAbove depth prev inner) :
      b.IsReadInside depth prev s (.ok (inner, after))
  | unclosed {opened : Nat} (count : (opened : Int) = depth + 1 + b.balanceFrom prev s)
      (above : b.StaysAbove depth prev s) : b.IsReadInside depth prev s (.error opened)

section ReadInside

variable {b : Bracket} {depth : Nat} {prev c : Char} {s inner after : List Char}

/-- A first character that is not the closer of the outermost bracket is a part of what is read. -/
theorem IsReadInside.cons {depth' : Nat} {x : Except Nat (List Char × List Char)}
    (h : b.IsReadInside depth' c s x)
    (hc : ∀ p, depth + b.balanceFrom prev (c :: p) = depth' + b.balanceFrom c p) :
    b.IsReadInside depth prev (c :: s) (x.map (Prod.map (c :: ·) id)) := by
  have hd : (0 : Int) ≤ depth := Int.natCast_nonneg depth
  cases h with
  | @closed inner after cut closes even above =>
    refine .closed (by rw [cut]; rfl) closes ?_ (above.cons hd hc)
    exact (hc inner).trans even
  | unclosed count above =>
    have hs := hc s
    exact .unclosed (by omega) (above.cons hd hc)

theorem readInside_isReadInside (b : Bracket) (depth : Nat) (prev : Char) (s : List Char) :
    b.IsReadInside depth prev s (b.readInside depth prev s) := by
  induction s generalizing depth prev with
  | nil => exact .unclosed rfl (.nil (Int.natCast_nonneg depth) b prev)
  | cons c s ih =>
    rw [readInside]
    split
    · rename_i ho
      refine (ih (depth + 1) c).cons fun p => ?_
      rw [ho, balanceFrom_opener]
      omega
    split
    · rename_i hc
      split
      · -- The closer found with no other bracket open is the one that ends the group.
        rename_i hd
        obtain ⟨rfl, -⟩ := closes_eq_true_iff.1 hc
        rw [hd]
        exact .closed rfl hc rfl (.nil (Int.le_refl 0) b prev)
      · refine (ih (depth - 1) c).cons fun p => ?_
        rw [balanceFrom_of_closes hc]
        omega
    · rename_i ho hc
      refine (ih depth c).cons fun p => ?_
      rw [balanceFrom_of_passed ho hc]

/-- The closer takes the balance below zero. -/
theorem balanceFrom_concat_closer (hc : b.closes (lastAfter prev inner) b.closer = true) :
    b.balanceFrom prev (inner ++ [b.closer]) = b.balanceFrom prev inner - 1 := by
  rw [balanceFrom_append, balanceFrom_of_closes hc, balanceFrom_nil]
  omega

theorem IsReadInside.unique {x y : Except Nat (List Char × List Char)}
    (hx : b.IsReadInside depth prev s x) (hy : b.IsReadInside depth prev s y) : x = y := by
  have hpart {inner after : List Char} (cut : s = inner ++ b.closer :: after) :
      inner ++ [b.closer] <+: s := ⟨after, by rw [cut, List.append_assoc]; rfl⟩
  have hlow {inner : List Char} (closes : b.closes (lastAfter prev inner) b.closer = true)
      (even : depth + b.balanceFrom prev inner = 0) :
      depth + b.balanceFrom prev (inner ++ [b.closer]) < 0 := by
    rw [balanceFrom_concat_closer closes]
    omega
  cases hx with
  | @closed inner after cut closes even above =>
    have hinner := hpart cut
    have hfalls := hlow closes even
    cases hy with
    | @closed inner' after' cut' closes' even' above' =>
      have hle := above.concat_prefix hinner (hpart cut') (hlow closes' even')
      have hge := above'.concat_prefix (hpart cut') hinner hfalls
      have heq := hle.eq_of_length_le hge.length_le
      obtain rfl := List.append_cancel_right heq
      have hafter := List.append_cancel_left (cut.symm.trans cut')
      rw [(List.cons.inj hafter).2]
    | unclosed count above' =>
      have hge := above' _ hinner
      omega
  | unclosed count above =>
    cases hy with
    | closed cut closes even above' =>
      have hge := above _ (hpart cut)
      have hfalls := hlow closes even
      omega
    | unclosed count' above' =>
      have heq := Int.natCast_inj.1 (count.trans count'.symm)
      rw [heq]

/-- What is read up to a closer depends on nothing after it. -/
theorem readInside_eq_ok (hc : b.closes (lastAfter prev inner) b.closer = true)
    (he : depth + b.balanceFrom prev inner = 0) (ha : b.StaysAbove depth prev inner)
    (after : List Char) :
    b.readInside depth prev (inner ++ b.closer :: after) = .ok (inner, after) :=
  (readInside_isReadInside b depth prev _).unique (.closed rfl hc he ha)

theorem readInside_append (h : b.readInside depth prev s = .ok (inner, after)) (rest : List Char) :
    b.readInside depth prev (inner ++ b.closer :: rest) = .ok (inner, rest) := by
  have hread := readInside_isReadInside b depth prev s
  rw [h] at hread
  cases hread with
  | closed cut closes even above => exact readInside_eq_ok closes even above rest

end ReadInside

/-- A part in front of the text, more than its opener, that closes all it opens. -/
def IsSpan (b : Bracket) (s p : List Char) : Prop := p <+: s ∧ 1 < p.length ∧ b.balance p = 0

theorem opener_ne_hyphen (b : Bracket) : b.opener ≠ '-' := by cases b <;> decide

theorem balance_opener (b : Bracket) (s : List Char) :
    b.balance (b.opener :: s) = b.balanceFrom b.opener s + 1 := balanceFrom_opener b _ s

/-- What a span has behind the opener takes the balance below zero. -/
theorem isSpan_opener_iff {b : Bracket} {s p : List Char} : b.IsSpan (b.opener :: s) p ↔
    ∃ q, p = b.opener :: q ∧ q <+: s ∧ b.balanceFrom b.opener q = -1 := by
  constructor
  · rintro ⟨hp, hlength, hzero⟩
    cases p with
    | nil => cases hlength
    | cons c q =>
      obtain ⟨rfl, hq⟩ := List.cons_prefix_cons.1 hp
      rw [balance_opener] at hzero
      exact ⟨q, rfl, hq, by omega⟩
  · rintro ⟨q, rfl, hq, hlow⟩
    have hne : q ≠ [] := by
      rintro rfl
      cases hlow
    have hpos := List.length_pos_iff.2 hne
    refine ⟨List.cons_prefix_cons.2 ⟨rfl, hq⟩, by rw [List.length_cons]; omega, ?_⟩
    rw [balance_opener, hlow]
    rfl

/-- A bracket in front of a text encloses what the shortest span has inside its opener and its closer:
every part in front of that opens as many brackets as it closes, and all of it just as many. Where the
text has no span, it is the balance of the whole text that is reported, and that is at least one. -/
theorem enclosed_exact (b : Bracket) (s : List Char) :
    ((∃ p, b.IsSpan (b.opener :: s) p) → ∃ inner after,
      enclosed (b.opener :: s) = .ok (inner, after) ∧
        b.opener :: s = b.opener :: inner ++ b.closer :: after ∧
        b.IsSpan (b.opener :: s) (b.opener :: inner ++ [b.closer]) ∧
        (∀ p, b.IsSpan (b.opener :: s) p → b.opener :: inner ++ [b.closer] <+: p) ∧
        (∀ p, p <+: inner → 0 ≤ b.balance p) ∧ b.balance inner = 0) ∧
    ((¬∃ p, b.IsSpan (b.opener :: s) p) → ∃ depth : Nat,
      enclosed (b.opener :: s) = .error (.unmatchedBracket b.opener depth) ∧
        depth = b.balance (b.opener :: s) ∧ 1 ≤ depth) := by
  have henclosed : enclosed (b.opener :: s) =
      (b.readInside 0 b.opener s).mapError (.unmatchedBracket b.opener) := by
    rw [enclosed, ofOpener?_opener]
  have hread := readInside_isReadInside b 0 b.opener s
  rw [henclosed]
  generalize b.readInside 0 b.opener s = x at hread
  cases hread with
  | @closed inner after cut closes even above =>
    rw [Int.natCast_zero, Int.zero_add] at even
    have hpart : inner ++ [b.closer] <+: s := ⟨after, by rw [cut, List.append_assoc]; rfl⟩
    have hspan : b.IsSpan (b.opener :: s) (b.opener :: inner ++ [b.closer]) := by
      refine isSpan_opener_iff.2 ⟨inner ++ [b.closer], rfl, hpart, ?_⟩
      rw [balanceFrom_concat_closer closes, even]
      rfl
    refine ⟨fun _ => ⟨inner, after, rfl, by rw [cut]; rfl, hspan, ?_, ?_, ?_⟩,
      fun hnone => absurd ⟨_, hspan⟩ hnone⟩
    · intro p hp
      obtain ⟨q, rfl, hq, hlow⟩ := isSpan_opener_iff.1 hp
      refine List.cons_prefix_cons.2 ⟨rfl, above.concat_prefix hpart hq ?_⟩
      rw [hlow]
      decide
    · intro p hp
      have hge := above p hp
      rwa [balanceFrom_eq_balance b b.opener_ne_hyphen, Int.natCast_zero, Int.zero_add] at hge
    · rw [← balanceFrom_eq_balance b b.opener_ne_hyphen, even]
  | @unclosed opened count above =>
    rw [Int.natCast_zero] at count above
    have hnone : ¬∃ p, b.IsSpan (b.opener :: s) p := by
      rintro ⟨p, hp⟩
      obtain ⟨q, rfl, hq, hlow⟩ := isSpan_opener_iff.1 hp
      have hge := above q hq
      omega
    refine ⟨fun hspan => absurd hspan hnone, fun _ => ⟨opened, rfl, ?_, ?_⟩⟩
    · rw [balance_opener]
      omega
    · have hge := above s List.prefix_rfl
      omega

/-- The `>` of an arrow closes nothing, and where no other stands two brackets are left open. -/
theorem enclosed_exact_arrow :
    let closed := "a->b<é>>c>".toList
    let unclosed := "<->".toList
    (enclosed ('<' :: closed) = .ok ("a->b<é>".toList, "c>".toList) ∧
      ∀ p, angle.IsSpan ('<' :: closed) p → "<a->b<é>>".toList <+: p) ∧
    (¬∃ p, angle.IsSpan ('<' :: unclosed) p) ∧
      enclosed ('<' :: unclosed) = .error (.unmatchedBracket '<' 2) := by
  intro closed unclosed
  have hspan : angle.IsSpan ('<' :: closed) "<a->b<é>>".toList :=
    ⟨⟨"c>".toList, by decide⟩, by decide, by decide⟩
  have hnone : ¬∃ p, angle.IsSpan ('<' :: unclosed) p := by
    rintro ⟨p, ⟨t, hp⟩, hlength, hzero⟩
    have hparts : ∀ n < 5, 1 < n → angle.balance (('<' :: unclosed).take n) ≠ 0 := by decide
    have hsum : p.length + t.length = 4 :=
      List.length_append.symm.trans (congrArg List.length hp)
    refine hparts p.length (by omega) hlength ?_
    rw [← hp, List.take_left]
    exact hzero
  constructor
  · obtain ⟨inner, after, hok, -, -, hshort, -⟩ := (enclosed_exact angle closed).1 ⟨_, hspan⟩
    have hresult : enclosed ('<' :: closed) = .ok ("a->b<é>".toList, "c>".toList) := rfl
    obtain ⟨rfl, rfl⟩ := Prod.mk.inj (Except.ok.inj (hok.symm.trans hresult))
    exact ⟨hresult, hshort⟩
  · obtain ⟨depth, herror, hdepth, -⟩ := (enclosed_exact angle unclosed).2 hnone
    have htwo : depth = 2 := Int.ofNat_inj.1 (hdepth.trans (by decide))
    rw [htwo] at herror
    exact ⟨hnone, herror⟩

end ApiSurface.Bracket
