import ApiSurface.Proofs.Source.Piece
import ApiSurface.Source.Outcome

namespace ApiSurface

open Text

theorem Text.lineAt_add (line k : Nat) (s rest : List Char) :
    lineAt (line + k) s rest = lineAt line s rest + k := by
  unfold lineAt
  omega

theorem Text.lineAt_self (line : Nat) (s : List Char) : lineAt line s s = line := by
  rw [lineAt, Nat.sub_self, Nat.add_zero]

namespace Outcome

variable {file : String} {owner : Option String} {line : Nat} {docs : List String}
  {s rest : List Char}

theorem append_eq (a b : Outcome) :
    a ++ b = ⟨a.records ++ b.records, a.diagnostics ++ b.diagnostics⟩ := rfl

theorem append_assoc (a b c : Outcome) : a ++ b ++ c = a ++ (b ++ c) := by
  simp only [append_eq, List.append_assoc]

theorem append_empty (o : Outcome) : o ++ empty = o := by
  simp only [append_eq, empty, List.append_nil]

/-- What a text holds that has `piece` in front, where `line` is its line and `lineAfter` the line of
the `rest` after the piece. -/
def afterPiece (file : String) (owner : Option String) (line lineAfter : Nat) (docs : List String)
    (rest : List Char) : Piece → Outcome
  | .docLine text => ofText file owner lineAfter (docs ++ [text]) rest
  | .remark => ofText file owner lineAfter docs rest
  | .openAttribute fault =>
    ofDiagnostic (.ofFault file line fault owner) ++ ofText file owner lineAfter docs rest
  | .function item =>
    ofRecord ⟨item.signature, docs, item.body, owner, file, line⟩ ++
      ofText file owner lineAfter [] rest
  | .ownerBlock blockOwner feeds inner =>
    ofText file (some blockOwner) (line + feeds) [] inner ++ ofText file owner lineAfter [] rest
  | .rejected fault itemOwner =>
    ofDiagnostic (.ofFault file line fault (itemOwner <|> owner)) ++
      ofText file owner lineAfter [] rest
  | .other => ofText file owner lineAfter [] rest

theorem ofText_of_blank (hs : trimStart s = []) : ofText file owner line docs s = empty := by
  rw [ofText, dif_pos hs]

theorem ofText_of_next {piece : Piece} (hs : trimStart s ≠ [])
    (hn : Piece.next (trimStart s) = (piece, rest)) :
    ofText file owner line docs s =
      afterPiece file owner (lineAt line s (trimStart s))
        (lineAt (lineAt line s (trimStart s)) (trimStart s) rest) docs rest piece := by
  rw [ofText, dif_neg hs]
  dsimp only
  split
  all_goals
    rename_i hp _
    rw [hn] at hp
    dsimp only at hp
    subst hp
    simp only [hn, afterPiece]

/-- White space in front only moves the line. -/
theorem ofText_blank_append {blank : List Char} (hb : isBlankText blank = true) :
    ofText file owner line docs (blank ++ s) =
      ofText file owner (line + lineFeeds blank) docs s := by
  have ht : trimStart (blank ++ s) = trimStart s := trimStart_blank_append hb
  by_cases hs : trimStart s = []
  · rw [ofText_of_blank (ht.trans hs), ofText_of_blank hs]
  · obtain ⟨middle, -, hm⟩ := exists_blank_append s
    have hfeeds := congrArg lineFeeds hm
    have hl : lineAt line (blank ++ s) (trimStart s) =
        lineAt (line + lineFeeds blank) s (trimStart s) := by
      rw [lineFeeds_append] at hfeeds
      rw [lineAt, lineAt, lineFeeds_append]
      omega
    rw [ofText_of_next (by rwa [ht]) rfl, ofText_of_next hs rfl, ht, hl]

/-- One step where no white space stands in front of the piece. -/
theorem ofText_piece_append {piece : Piece} {taken : List Char} (hs : taken ++ rest ≠ [])
    (ht : trimStart (taken ++ rest) = taken ++ rest)
    (hn : Piece.next (taken ++ rest) = (piece, rest)) :
    ofText file owner line docs (taken ++ rest) =
      afterPiece file owner line (line + lineFeeds taken) docs rest piece := by
  rw [ofText_of_next (by rwa [ht]) (by rw [ht, hn]), ht, lineAt_self, lineAt_append]

/-- A text that is not all white space is white space, a piece, and the rest; the piece tells how to
go on. -/
theorem exists_piece (hs : trimStart s ≠ []) :
    ∃ blank taken rest piece, s = blank ++ (taken ++ rest) ∧ taken ≠ [] ∧
      Piece.next (taken ++ rest) = (piece, rest) ∧
      ∀ file owner line docs, ofText file owner line docs s =
        afterPiece file owner (line + lineFeeds blank) (line + lineFeeds (blank ++ taken)) docs rest
          piece := by
  obtain ⟨blank, hblank, hb⟩ := exists_blank_append s
  obtain ⟨piece, rest, hn⟩ : ∃ piece rest, Piece.next (trimStart s) = (piece, rest) :=
    ⟨_, _, rfl⟩
  have hadv := Piece.next_advances hs
  rw [hn] at hadv
  obtain ⟨⟨taken, ht⟩, hlt⟩ := hadv
  have htrim : trimStart (taken ++ rest) = taken ++ rest := by rw [ht, trimStart_trimStart]
  rw [← ht] at hn hb
  refine ⟨blank, taken, rest, piece, hb, ?_, hn, fun file owner line docs => ?_⟩
  · intro hnil
    rw [← ht, hnil] at hlt
    exact Nat.lt_irrefl _ hlt
  · rw [lineFeeds_append, ← Nat.add_assoc, ← ofText_piece_append (by rwa [ht]) htrim hn,
      ← ofText_blank_append hblank, ← hb]

section Line

variable {text : List Char}

theorem lineFeeds_slashes (ht : '\n' ∉ text) :
    lineFeeds ("///".toList ++ (text ++ ['\n'])) = 1 := by
  rw [lineFeeds_append, lineFeeds_append, lineFeeds, lineFeeds, lineFeeds,
    List.count_eq_zero_of_not_mem ht]
  rfl

/-- A piece that is a line takes one line. -/
theorem ofText_line {piece : Piece} (ht : '\n' ∉ text)
    (hn : Piece.next ("///".toList ++ (text ++ '\n' :: s)) = (piece, s)) :
    ofText file owner line docs ("///".toList ++ (text ++ '\n' :: s)) =
      afterPiece file owner line (line + 1) docs s piece := by
  have happend : "///".toList ++ (text ++ '\n' :: s) =
      ("///".toList ++ (text ++ ['\n'])) ++ s := by
    simp only [List.append_assoc, List.cons_append, List.nil_append]
  rw [happend] at hn ⊢
  rw [ofText_piece_append (by simp) (trimStart_cons rfl) hn, lineFeeds_slashes ht]

end Line

section Moved

/-- The same outcome `k` lines further down. -/
def movedDown (k : Nat) (o : Outcome) : Outcome :=
  ⟨o.records.map fun r => { r with line := r.line + k },
    o.diagnostics.map fun d => { d with line := d.line + k }⟩

variable (k : Nat)

theorem movedDown_append (a b : Outcome) :
    (a ++ b).movedDown k = a.movedDown k ++ b.movedDown k := by
  simp only [append_eq, movedDown, List.map_append]

/-- Reading a text that begins `k` lines further down. -/
theorem ofText_add_line :
    ofText file owner (line + k) docs s = (ofText file owner line docs s).movedDown k := by
  fun_induction ofText file owner line docs s with
  | case1 owner line docs s hs => exact ofText_of_blank hs
  | case2 owner line docs s hs line' rest lineAfter text hn _ ih =>
    rw [ofText_of_next hs hn, lineAt_add, lineAt_add]
    exact ih
  | case3 owner line docs s hs line' rest lineAfter hn _ ih =>
    rw [ofText_of_next hs hn, lineAt_add, lineAt_add]
    exact ih
  | case4 owner line docs s hs line' report rest lineAfter fault hn _ ih =>
    rw [ofText_of_next hs hn, lineAt_add, lineAt_add, movedDown_append, afterPiece, ih]
    rfl
  | case5 owner line docs s hs line' rest lineAfter item hn _ ih =>
    rw [ofText_of_next hs hn, lineAt_add, lineAt_add, movedDown_append, afterPiece, ih]
    rfl
  | case6 owner line docs s hs line' rest lineAfter blockOwner feeds inner hn _ ihInner ih =>
    rw [ofText_of_next hs hn, lineAt_add, lineAt_add, movedDown_append, afterPiece, ih,
      Nat.add_right_comm, ihInner]
  | case7 owner line docs s hs line' report rest lineAfter fault itemOwner hn _ ih =>
    rw [ofText_of_next hs hn, lineAt_add, lineAt_add, movedDown_append, afterPiece, ih]
    rfl
  | case8 owner line docs s hs line' rest lineAfter hn _ ih =>
    rw [ofText_of_next hs hn, lineAt_add, lineAt_add]
    exact ih

end Moved

end Outcome

end ApiSurface
