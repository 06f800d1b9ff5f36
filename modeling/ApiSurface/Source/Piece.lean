import ApiSurface.Source.Target

namespace ApiSurface

open Text TopLevel
open ApiSurface.Bracket (enclosed)

inductive Piece where
  /-- A line of a doc comment, without its marker. -/
  | docLine (text : String)
  /-- A comment, an attribute or a `use` item; a doc comment above it goes on below it. -/
  | remark
  /-- An attribute whose bracket never closes; its first line is passed over. -/
  | openAttribute (fault : Fault)
  | function (item : FunctionItem)
  /-- A block with the name of its owner, the text between its braces, and the number of line feeds
  in front of that text. -/
  | ownerBlock (owner : String) (lineFeedsBefore : Nat) (inner : List Char)
  /-- A function or block that could not be read, with its owner if its head names one. -/
  | rejected (fault : Fault) (owner : Option String)
  /-- A trait, or a line of anything else; a doc comment above it documents nothing. -/
  | other
  deriving DecidableEq, Repr

namespace Piece

/-- The text after an item that could not be read: after its block, which runs to the end if it never
closes, or after its semicolon; failing both, after its first line. -/
def afterItem (s : List Char) : List Char :=
  let rest := (header s).2
  let rest := (keyword? whereWord rest).elim rest fun clause => (header clause).2
  match rest with
  | '\x7b' :: block =>
    match enclosed ('\x7b' :: block) with
    | .ok (_, after) => after
    | .error _ => []
  | ';' :: after => after
  | _ => afterLine s

/-- The text after the first semicolon, or after the first line if there is none. -/
def afterSemicolon (s : List Char) : List Char :=
  match s.dropWhile (· != ';') with
  | _ :: after => after
  | [] => afterLine s

/-- The line of a doc comment: what follows its marker, without the carriage returns at its end. -/
def docText (s : List Char) : String :=
  String.ofList (dropEndWhile (· == '\r') (s.takeWhile (· != '\n')))

def ofAttribute (s : List Char) : Piece × List Char :=
  match enclosed (s.dropWhile (· != '[')) with
  | .ok (_, after) => (.remark, after)
  | .error fault => (.openAttribute fault, afterLine s)

def ofFunction (s : List Char) : Piece × List Char :=
  match FunctionItem.read s with
  | .ok (item, after) => (.function item, after)
  | .error fault => (.rejected fault none, afterItem s)

def ofBlock (s : List Char) : Piece × List Char :=
  match Target.read s with
  | .error fault => (.rejected fault none, afterItem s)
  | .ok (owner, block) =>
    match enclosed block with
    | .ok (inner, after) => (.ownerBlock owner (lineFeeds s - lineFeeds block) inner, after)
    | .error fault => (.rejected fault (some owner), afterItem s)

/-- An item, told apart by the word after its lead. -/
def ofItem (s : List Char) : Piece × List Char :=
  match Lead.read s with
  | .error _ => (.other, afterLine s)
  | .ok (_, rest) =>
    if (keyword? FunctionItem.fnWord rest).isSome then ofFunction s
    else if (keyword? Target.implWord rest).isSome then ofBlock s
    else if (keyword? "trait".toList rest).isSome then (.other, afterItem s)
    else if (keyword? "use".toList rest).isSome then (.remark, afterSemicolon s)
    else (.other, afterLine s)

/-- The piece in front of a text that begins with no blank, and the text after it. Four slashes begin
an ordinary comment. -/
def next (s : List Char) : Piece × List Char :=
  match strip? "///".toList s with
  | some text =>
    if text.head? = some '/' then (.remark, afterLine s) else (.docLine (docText text), afterLine s)
  | none =>
    if startsWith "//".toList s then (.remark, afterLine s)
    else if startsWith "/*".toList s then (.remark, afterMark "*/".toList s)
    else if startsWith "#[".toList s || startsWith "#![".toList s then ofAttribute s
    else ofItem s

theorem length_afterLine_lt {s : List Char} (hs : s ≠ []) : (afterLine s).length < s.length := by
  cases s with
  | nil => exact absurd rfl hs
  | cons c rest =>
    rw [afterLine]
    split
    · simp
    · exact Nat.lt_succ_of_le (afterLine_suffix rest).length_le

theorem afterLine_advances {s : List Char} (hs : s ≠ []) :
    afterLine s <:+ s ∧ (afterLine s).length < s.length :=
  ⟨afterLine_suffix s, length_afterLine_lt hs⟩

theorem afterMark_advances {mark s : List Char} (hm : mark ≠ []) (hs : s ≠ []) :
    afterMark mark s <:+ s ∧ (afterMark mark s).length < s.length := by
  refine ⟨afterMark_suffix mark s, ?_⟩
  cases s with
  | nil => exact absurd rfl hs
  | cons c rest =>
    rw [afterMark]
    split
    · rename_i after h
      have hl := congrArg List.length (strip?_eq_some_iff.1 h)
      have := List.length_pos_iff.2 hm
      rw [List.length_append] at hl
      omega
    · exact Nat.lt_succ_of_le (afterMark_suffix mark rest).length_le

theorem afterItem_advances {s : List Char} (hs : s ≠ []) :
    afterItem s <:+ s ∧ (afterItem s).length < s.length := by
  have hr : (keyword? whereWord (header s).2).elim (header s).2 (fun clause => (header clause).2)
      <:+ s := by
    cases hk : keyword? whereWord (header s).2 with
    | none => exact header_suffix s
    | some clause => exact ((header_suffix clause).trans (keyword?_after hk)).trans (header_suffix s)
  unfold afterItem
  dsimp only
  split
  · rename_i block hb
    rw [hb] at hr
    split
    · rename_i inner after hi
      have hi := enclosed_after hi
      exact ⟨hi.1.trans hr, Nat.lt_of_lt_of_le hi.2 hr.length_le⟩
    · exact ⟨List.nil_suffix, List.length_pos_iff.2 hs⟩
  · rename_i after ha
    rw [ha] at hr
    exact ⟨(List.suffix_cons _ _).trans hr, Nat.lt_of_lt_of_le (Nat.lt_succ_self _) hr.length_le⟩
  · exact afterLine_advances hs

theorem afterSemicolon_advances {s : List Char} (hs : s ≠ []) :
    afterSemicolon s <:+ s ∧ (afterSemicolon s).length < s.length := by
  unfold afterSemicolon
  split
  · rename_i c after h
    have hd : c :: after <:+ s := h ▸ List.dropWhile_suffix _
    exact ⟨(List.suffix_cons _ _).trans hd, Nat.lt_of_lt_of_le (Nat.lt_succ_self _) hd.length_le⟩
  · exact afterLine_advances hs

theorem ofAttribute_advances {s : List Char} (hs : s ≠ []) :
    (ofAttribute s).2 <:+ s ∧ (ofAttribute s).2.length < s.length := by
  unfold ofAttribute
  split
  · rename_i inner after hi
    have hi := enclosed_after hi
    have hd : s.dropWhile (· != '[') <:+ s := List.dropWhile_suffix _
    exact ⟨hi.1.trans hd, Nat.lt_of_lt_of_le hi.2 hd.length_le⟩
  · exact afterLine_advances hs

theorem ofFunction_advances {s : List Char} (hs : s ≠ []) :
    (ofFunction s).2 <:+ s ∧ (ofFunction s).2.length < s.length := by
  unfold ofFunction
  split
  · exact FunctionItem.read_advances ‹_›
  · exact afterItem_advances hs

theorem ofBlock_advances {s : List Char} (hs : s ≠ []) :
    (ofBlock s).2 <:+ s ∧ (ofBlock s).2.length < s.length := by
  unfold ofBlock
  split
  · exact afterItem_advances hs
  · rename_i owner block hb
    split
    · rename_i inner after hi
      have hb := Target.read_keeps hb
      have hi := enclosed_after hi
      exact ⟨hi.1.trans hb, Nat.lt_of_lt_of_le hi.2 hb.length_le⟩
    · exact afterItem_advances hs

theorem ofItem_advances {s : List Char} (hs : s ≠ []) :
    (ofItem s).2 <:+ s ∧ (ofItem s).2.length < s.length := by
  unfold ofItem
  split
  · exact afterLine_advances hs
  repeat' split
  · exact ofFunction_advances hs
  · exact ofBlock_advances hs
  · exact afterItem_advances hs
  · exact afterSemicolon_advances hs
  · exact afterLine_advances hs

/-- A piece takes at least one character, and what is left is the end of the text. -/
theorem next_advances {s : List Char} (hs : s ≠ []) :
    (next s).2 <:+ s ∧ (next s).2.length < s.length := by
  unfold next
  split
  · split <;> exact afterLine_advances hs
  repeat' split
  · exact afterLine_advances hs
  · exact afterMark_advances (by decide) hs
  · exact ofAttribute_advances hs
  · exact ofItem_advances hs

/-- The text inside a block is shorter than the text that the block was read from. -/
theorem length_inner_lt {s rest inner : List Char} {owner : String} {feeds : Nat}
    (h : next s = (.ownerBlock owner feeds inner, rest)) : inner.length < s.length := by
  have hb : ofBlock s = (.ownerBlock owner feeds inner, rest) := by
    unfold next at h
    repeat' split at h
    all_goals try simp only [Prod.mk.injEq, reduceCtorEq, false_and] at h
    · unfold ofAttribute at h
      split at h <;> simp at h
    · unfold ofItem at h
      repeat' split at h
      all_goals try simp only [Prod.mk.injEq, reduceCtorEq, false_and] at h
      · unfold ofFunction at h
        split at h <;> simp at h
      · exact h
  unfold ofBlock at hb
  split at hb
  · simp at hb
  · rename_i block ht
    split at hb
    · rename_i hi
      simp only [Prod.mk.injEq, Piece.ownerBlock.injEq] at hb
      obtain ⟨⟨-, -, rfl⟩, -⟩ := hb
      have := Bracket.length_of_enclosed hi
      have := (Target.read_keeps ht).length_le
      omega
    · simp at hb

end Piece

end ApiSurface
