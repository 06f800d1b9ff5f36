import ApiSurface.Proofs.Source.Block
import ApiSurface.Proofs.Source.Outcome

namespace ApiSurface

open Text

namespace Outcome

/-- The same outcome in a block of `owner`: what belongs to nobody belongs to it. -/
def inBlockOf (owner : String) (o : Outcome) : Outcome :=
  ⟨o.records.map fun r => { r with owner := r.owner <|> some owner },
    o.diagnostics.map fun d => { d with owner := d.owner <|> some owner }⟩

variable {file : String} {owner : Option String} {line : Nat} {docs : List String} {s : List Char}

theorem inBlockOf_append (name : String) (a b : Outcome) :
    (a ++ b).inBlockOf name = a.inBlockOf name ++ b.inBlockOf name := by
  simp only [append_eq, inBlockOf, List.map_append]

/-- An outer owner is put in only where there is no inner one. The inner text of a block is read with
the owner of that block, so there the outer one is put in nowhere. -/
theorem ofText_orElse_owner (name : String) :
    ofText file (owner <|> some name) line docs s =
      (ofText file owner line docs s).inBlockOf name := by
  fun_induction ofText file owner line docs s with
  | case1 owner line docs s hs => exact ofText_of_blank hs
  | case2 owner line docs s hs line' rest lineAfter text hn _ ih =>
    rw [ofText_of_next hs hn]
    exact ih
  | case3 owner line docs s hs line' rest lineAfter hn _ ih =>
    rw [ofText_of_next hs hn]
    exact ih
  | case4 owner line docs s hs line' report rest lineAfter fault hn _ ih =>
    rw [ofText_of_next hs hn, inBlockOf_append, afterPiece, ih]
    rfl
  | case5 owner line docs s hs line' rest lineAfter item hn _ ih =>
    rw [ofText_of_next hs hn, inBlockOf_append, afterPiece, ih]
    rfl
  | case6 owner line docs s hs line' rest lineAfter blockOwner feeds inner hn _ ihInner ih =>
    have hinner : ofText file (some blockOwner) (line' + feeds) [] inner =
        (ofText file (some blockOwner) (line' + feeds) [] inner).inBlockOf name := ihInner
    rw [ofText_of_next hs hn, inBlockOf_append, afterPiece, ih, ← hinner]
  | case7 owner line docs s hs line' report rest lineAfter fault itemOwner hn _ ih =>
    rw [ofText_of_next hs hn, inBlockOf_append, afterPiece, ih]
    cases itemOwner <;> rfl
  | case8 owner line docs s hs line' rest lineAfter hn _ ih =>
    rw [ofText_of_next hs hn]
    exact ih

/-- A block in front of a text adds what its text holds, with its owner put in, whatever block it
stands in itself. -/
theorem ofText_ownerBlock_append {name : String} {feeds : Nat} {taken inner rest : List Char}
    (hs : taken ++ rest ≠ []) (ht : trimStart (taken ++ rest) = taken ++ rest)
    (hn : Piece.next (taken ++ rest) = (.ownerBlock name feeds inner, rest)) (k : Nat) :
    ofText file owner (1 + k) docs (taken ++ rest) =
      ((parseSource file inner).inBlockOf name).movedDown (k + feeds) ++
        (ofText file owner 1 [] rest).movedDown (k + lineFeeds taken) := by
  have hinner : ofText file (some name) 1 [] inner = (parseSource file inner).inBlockOf name := by
    rw [parseSource, ← ofText_orElse_owner]
    rfl
  rw [ofText_piece_append hs ht hn, afterPiece, Nat.add_assoc, ofText_add_line, hinner, Nat.add_assoc,
    ofText_add_line]

/-- A function of a text itself: the piece in front of the text, or of what a piece in front leaves. The
functions in a block of the text are not among them. -/
inductive HasFunction (item : FunctionItem) : List Char → Prop
  | here {s rest : List Char} (hs : trimStart s ≠ [])
      (hn : Piece.next (trimStart s) = (.function item, rest)) : HasFunction item s
  | later {s rest : List Char} {piece : Piece} (hs : trimStart s ≠ [])
      (hn : Piece.next (trimStart s) = (piece, rest)) (h : HasFunction item rest) : HasFunction item s

theorem mem_records_append {r : FunctionRecord} {a b : Outcome} :
    r ∈ (a ++ b).records ↔ r ∈ a.records ∨ r ∈ b.records := List.mem_append

/-- A function of a text is among its records, and belongs to whom the text belongs. -/
theorem HasFunction.exists_record {item : FunctionItem} (h : HasFunction item s)
    (owner : Option String) : ∀ line docs, ∃ r ∈ (ofText file owner line docs s).records,
      r.signature = item.signature ∧ r.body = item.body ∧ r.owner = owner := by
  induction h with
  | here hs hn =>
    intro line docs
    rw [ofText_of_next hs hn]
    exact ⟨_, List.mem_cons_self, rfl, rfl, rfl⟩
  | @later s rest piece hs hn _ ih =>
    intro line docs
    rw [ofText_of_next hs hn]
    -- Whatever the piece is, the rest is read with the same owner behind it.
    cases piece with
    | docLine | remark | other => exact ih _ _
    | openAttribute | function | ownerBlock | rejected =>
      obtain ⟨r, hr, he⟩ := ih (lineAt (lineAt line s (trimStart s)) (trimStart s) rest) _
      exact ⟨r, mem_records_append.2 (.inr hr), he⟩

end Outcome

/-- A text that is one block holds what the text in it holds, further down by the lines of its head,
with its owner put in. -/
theorem parseSource_of_ownerBlock (file : String) {owner : String} {feeds : Nat} {s inner : List Char}
    (hs : s ≠ []) (ht : trimStart s = s) (hn : Piece.next s = (.ownerBlock owner feeds inner, [])) :
    parseSource file s = ((parseSource file inner).inBlockOf owner).movedDown feeds := by
  rw [← List.append_nil s] at hs ht hn
  have h : Outcome.ofText file none (1 + 0) [] (s ++ []) = _ :=
    Outcome.ofText_ownerBlock_append hs ht hn 0
  have hrest : (Outcome.ofText file none 1 [] []).movedDown (0 + lineFeeds s) = .empty := by
    rw [Outcome.ofText_of_blank rfl]
    rfl
  rw [hrest, Outcome.append_empty, Nat.zero_add, List.append_nil] at h
  exact h

/-- A block on one line with what stands before its text holds what its text holds, in the same order
and on the same lines, with its owner put in. -/
theorem parseSource_block (file : String) {owner : String} {inner : List Char}
    (ho : IsOwner owner.toList) (hb : Bracket.curly.IsBalanced inner) :
    parseSource file ("impl ".toList ++ owner.toList ++ " \x7b".toList ++ inner ++ ['\x7d']) =
      (parseSource file inner).inBlockOf owner := by
  have htext : "impl ".toList ++ owner.toList ++ " \x7b".toList ++ inner ++ ['\x7d'] =
      Target.implWord ++ ' ' :: (owner.toList ++ ' ' :: '\x7b' :: (inner ++ '\x7d' :: [])) ++ [] := by
    have himpl : "impl ".toList = Target.implWord ++ [' '] := rfl
    have hopen : " \x7b".toList = [' ', '\x7b'] := rfl
    rw [himpl, hopen]
    simp only [List.append_assoc, List.cons_append, List.nil_append, List.append_nil]
  have hhead : lineFeeds (Target.implWord ++ ' ' :: (owner.toList ++ [' '])) = 0 := by
    have hword := forall_isWordChar_of_isIdentifier ho.word
    refine List.count_eq_zero_of_not_mem fun hm => ?_
    rcases List.mem_append.1 hm with hm | hm
    · exact absurd hm (by decide)
    · simp only [List.mem_cons, List.mem_append, List.not_mem_nil, or_false] at hm
      rcases hm with hm | hm | hm
      · exact absurd hm (by decide)
      · exact absurd (hword _ hm) (by decide)
      · exact absurd hm (by decide)
  have hn := Piece.next_block ho hb []
  rw [← List.append_nil (Target.implWord ++ _)] at hn
  rw [parseSource, htext, Outcome.ofText_piece_append (List.cons_ne_nil _ _) (trimStart_cons rfl) hn,
    Outcome.afterPiece, hhead, Nat.add_zero, Outcome.ofText_of_blank (s := []) rfl, parseSource,
    ← Outcome.ofText_orElse_owner]
  exact Outcome.append_empty _

theorem parseSource_block_store :
    parseSource "a.rs" ("impl ".toList ++ "Store".toList ++ " \x7b".toList ++
        ("\n/// Adds.\nfn put() \x7b\x7d\nimpl Log \x7b fn end() \x7b\x7d \x7d\n" ++
          "fn 9() \x7b\x7d").toList ++ ['\x7d']) =
      (parseSource "a.rs"
        ("\n/// Adds.\nfn put() \x7b\x7d\nimpl Log \x7b fn end() \x7b\x7d \x7d\n" ++
          "fn 9() \x7b\x7d").toList).inBlockOf "Store" :=
  parseSource_block "a.rs" ⟨by decide, by decide⟩ (by decide +kernel)

end ApiSurface
