import ApiSurface.Proofs.Source.Outcome
import ApiSurface.Proofs.Source.Piece
import Mathlib.Data.List.Forall2

namespace ApiSurface

open Text
open ApiSurface.Bracket (IsBalanced)

/-- A piece of a text by its offsets: where it begins, where the header of its function begins, and
where it ends. -/
structure Span where
  start : Nat
  header : Nat
  stop : Nat
  deriving DecidableEq, Repr

/-- The doc line whose marker stands at an offset of the text: what follows the marker on its line,
without the carriage returns at the end. -/
def IsDocLineAt (text : List Char) (offset : Nat) (doc : String) : Prop :=
  ∃ line rest, text.drop offset = "///".toList ++ (line ++ '\n' :: rest) ∧ '\n' ∉ line ∧
    line.head? ≠ some '/' ∧ doc = String.ofList (dropEndWhile (· == '\r') line)

/-- Doc lines whose markers stand in order, each at a place of its own, from `first` on and in front
of `last`. -/
def AreDocLines (text : List Char) (first last : Nat) (docs : List String) : Prop :=
  ∃ offsets : List Nat, offsets.Pairwise (· < ·) ∧
    (∀ offset ∈ offsets, first ≤ offset ∧ offset < last) ∧
    List.Forall₂ (IsDocLineAt text) offsets docs

/-- The record is what the text has between the offsets of the span. -/
structure FunctionRecord.IsAt (text : List Char) (r : FunctionRecord) (span : Span) : Prop where
  inside : span.start ≤ span.header ∧ span.header < span.stop ∧ span.stop ≤ text.length
  item : ∃ rest, FunctionItem.read ((text.take span.stop).drop span.header ++ rest) =
    .ok (⟨r.signature, r.body⟩, rest)
  block : ∃ head, (text.take span.stop).drop span.header =
    head ++ '\x7b' :: (r.body.toList ++ ['\x7d'])
  balanced : Bracket.curly.IsBalanced r.body.toList
  line : r.line = 1 + lineFeeds (text.take span.header)
  docs : AreDocLines text span.start span.header r.docLines

/-- The records have spans of the text for themselves, in order, between two offsets. -/
def HaveSpans (text : List Char) (first last : Nat) (records : List FunctionRecord) : Prop :=
  ∃ spans : List Span, List.Forall₂ (FunctionRecord.IsAt text) records spans ∧
    spans.Pairwise (fun a b => a.stop ≤ b.start) ∧
    ∀ span ∈ spans, first ≤ span.start ∧ span.stop ≤ last

section DocLines

variable {text : List Char} {first last last' : Nat} {docs : List String}

theorem AreDocLines.nil : AreDocLines text first last [] :=
  ⟨[], List.Pairwise.nil, by simp, .nil⟩

theorem AreDocLines.mono (h : AreDocLines text first last docs) (hl : last ≤ last') :
    AreDocLines text first last' docs := by
  obtain ⟨offsets, hp, hin, hd⟩ := h
  exact ⟨offsets, hp, fun o ho => ⟨(hin o ho).1, Nat.lt_of_lt_of_le (hin o ho).2 hl⟩, hd⟩

theorem AreDocLines.concat (h : AreDocLines text first last docs) {doc : String} (hf : first ≤ last)
    (hd : IsDocLineAt text last doc) (hl : last < last') :
    AreDocLines text first last' (docs ++ [doc]) := by
  obtain ⟨offsets, hp, hin, hds⟩ := h
  refine ⟨offsets ++ [last], ?_, ?_, List.rel_append hds (.cons hd .nil)⟩
  · rw [List.pairwise_append]
    refine ⟨hp, List.pairwise_singleton _ _, ?_⟩
    intro o ho o' ho'
    rw [List.mem_singleton.1 ho']
    exact (hin o ho).2
  · intro o ho
    rcases List.mem_append.1 ho with ho | ho
    · exact ⟨(hin o ho).1, Nat.lt_trans (hin o ho).2 hl⟩
    · rw [List.mem_singleton.1 ho]
      exact ⟨hf, hl⟩

end DocLines

namespace HaveSpans

variable {text : List Char} {first first' middle last last' : Nat}
  {records records' : List FunctionRecord}

theorem nil : HaveSpans text first last [] := ⟨[], .nil, List.Pairwise.nil, by simp⟩

theorem single {r : FunctionRecord} {span : Span} (h : r.IsAt text span) (hf : first ≤ span.start)
    (hl : span.stop ≤ last) : HaveSpans text first last [r] := by
  refine ⟨[span], .cons h .nil, List.pairwise_singleton _ _, ?_⟩
  intro s hs
  rw [List.mem_singleton.1 hs]
  exact ⟨hf, hl⟩

theorem mono (h : HaveSpans text first last records) (hf : first' ≤ first) (hl : last ≤ last') :
    HaveSpans text first' last' records := by
  obtain ⟨spans, hat, hp, hin⟩ := h
  exact ⟨spans, hat, hp, fun s hs => ⟨hf.trans (hin s hs).1, (hin s hs).2.trans hl⟩⟩

theorem append (h : HaveSpans text first middle records)
    (h' : HaveSpans text middle last records') (hf : first ≤ middle) (hl : middle ≤ last) :
    HaveSpans text first last (records ++ records') := by
  obtain ⟨spans, hat, hp, hin⟩ := h
  obtain ⟨spans', hat', hp', hin'⟩ := h'
  refine ⟨spans ++ spans', List.rel_append hat hat', ?_, ?_⟩
  · rw [List.pairwise_append]
    exact ⟨hp, hp', fun s hs s' hs' => (hin s hs).2.trans (hin' s' hs').1⟩
  · intro s hs
    rcases List.mem_append.1 hs with hs | hs
    · exact ⟨(hin s hs).1, (hin s hs).2.trans hl⟩
    · exact ⟨hf.trans (hin' s hs).1, (hin' s hs).2⟩

end HaveSpans

/-- Line numbers in order, from one line to another. -/
structure AreLines (first last : Nat) (lines : List Nat) : Prop where
  sorted : lines.Pairwise (· ≤ ·)
  within : ∀ line ∈ lines, first ≤ line ∧ line ≤ last

namespace AreLines

variable {first first' middle last last' : Nat} {lines lines' : List Nat}

theorem nil : AreLines first last [] := ⟨List.Pairwise.nil, by simp⟩

theorem mono (h : AreLines first last lines) (hf : first' ≤ first) (hl : last ≤ last') :
    AreLines first' last' lines :=
  ⟨h.sorted, fun l hm => ⟨hf.trans (h.within l hm).1, (h.within l hm).2.trans hl⟩⟩

theorem cons (h : AreLines middle last lines) (hf : first ≤ middle) (hl : first ≤ last) :
    AreLines first last (first :: lines) := by
  refine ⟨List.pairwise_cons.2 ⟨fun l hm => hf.trans (h.within l hm).1, h.sorted⟩, ?_⟩
  intro l hm
  rcases List.mem_cons.1 hm with rfl | hm
  · exact ⟨Nat.le_refl _, hl⟩
  · exact ⟨hf.trans (h.within l hm).1, (h.within l hm).2⟩

theorem append (h : AreLines first middle lines) (h' : AreLines middle last lines')
    (hf : first ≤ middle) (hl : middle ≤ last) : AreLines first last (lines ++ lines') := by
  refine ⟨List.pairwise_append.2 ⟨h.sorted, h'.sorted, fun l hm l' hm' => ?_⟩, fun l hm => ?_⟩
  · exact (h.within l hm).2.trans (h'.within l' hm').1
  · rcases List.mem_append.1 hm with hm | hm
    · exact ⟨(h.within l hm).1, (h.within l hm).2.trans hl⟩
    · exact ⟨hf.trans (h'.within l hm).1, (h'.within l hm).2⟩

end AreLines

section Pieces

variable {text pre taken rest post : List Char} {first : Nat} {docs : List String}

theorem isDocLineAt_of_next {doc : String} (ht : text = pre ++ (taken ++ (rest ++ post)))
    (hn : Piece.next (taken ++ rest) = (.docLine doc, rest)) (hr : rest ≠ []) :
    IsDocLineAt text pre.length doc := by
  obtain ⟨line, hl, hs, rfl, hline | hnil⟩ := Piece.docLine_of_next hn
  · refine ⟨line, rest ++ post, ?_, hl, hs, rfl⟩
    rw [ht, List.drop_left, ← List.append_assoc, hline]
    simp only [List.append_assoc, List.cons_append]
  · exact absurd hnil hr

theorem isAt_of_next {item : FunctionItem} (ht : text = pre ++ (taken ++ (rest ++ post)))
    (hn : Piece.next (taken ++ rest) = (.function item, rest)) (hne : taken ≠ [])
    (hf : first ≤ pre.length) (hd : AreDocLines text first pre.length docs)
    (owner : Option String) (file : String) :
    FunctionRecord.IsAt text
      ⟨item.signature, docs, item.body, owner, file, 1 + lineFeeds pre⟩
      ⟨first, pre.length, (pre ++ taken).length⟩ := by
  have hread := Piece.function_of_next hn
  obtain ⟨hbalanced, head, hblock⟩ := FunctionItem.body_of_read hread
  have hpiece : (text.take (pre ++ taken).length).drop pre.length = taken := by
    rw [ht, ← List.append_assoc, List.take_left, List.drop_left]
  have hpos := List.length_pos_iff.2 hne
  refine ⟨⟨hf, ?_, ?_⟩, ⟨rest, ?_⟩, ⟨head, ?_⟩, hbalanced, ?_, hd⟩
  · simp only [List.length_append]
    omega
  · rw [ht]
    simp only [List.length_append]
    omega
  · rw [hpiece]
    exact hread
  · rw [hpiece]
    apply List.append_cancel_right
    rw [hblock]
    simp only [List.append_assoc, List.cons_append, List.nil_append]
  · rw [ht, List.take_left]

end Pieces

namespace Outcome

variable {file : String} {owner : Option String} {line first : Nat} {docs : List String}
  {text pre s post : List Char}

/-- Reading goes through the text from `pre.length` on: the records it finds have spans there, which
begin no earlier than the doc lines that wait. -/
theorem ofText_haveSpans (ht : text = pre ++ (s ++ post)) (hl : line = 1 + lineFeeds pre)
    (hf : first ≤ pre.length) (hd : AreDocLines text first pre.length docs) :
    HaveSpans text first (pre ++ s).length (ofText file owner line docs s).records := by
  induction hlen : s.length using Nat.strong_induction_on
    generalizing owner line docs s pre post first with
  | _ n ih =>
  subst hlen hl
  by_cases hs : trimStart s = []
  · rw [ofText_of_blank hs]
    exact HaveSpans.nil
  obtain ⟨blank, taken, rest, piece, rfl, hne, hn, hstep⟩ := exists_piece hs
  have hpos := List.length_pos_iff.2 hne
  -- White space in front belongs to no piece: the piece begins at the end of `pre ++ blank`.
  have hline : 1 + lineFeeds pre + lineFeeds blank = 1 + lineFeeds (pre ++ blank) := by
    rw [lineFeeds_append, Nat.add_assoc]
  have hlineAfter : 1 + lineFeeds pre + lineFeeds (blank ++ taken) =
      1 + lineFeeds (pre ++ blank ++ taken) := by
    simp only [lineFeeds_append, Nat.add_assoc]
  have hd' : AreDocLines text first (pre ++ blank).length docs := hd.mono (by simp)
  have hf' : first ≤ (pre ++ blank).length := by
    rw [List.length_append]
    omega
  have ht' : text = (pre ++ blank) ++ (taken ++ (rest ++ post)) := by
    rw [ht]
    simp only [List.append_assoc]
  have hend : pre ++ (blank ++ (taken ++ rest)) = pre ++ blank ++ taken ++ rest := by
    simp only [List.append_assoc]
  rw [hstep, hline, hlineAfter, hend]
  generalize pre ++ blank = pre' at ht' hf' hd'
  have hlt : pre'.length < (pre' ++ taken).length := by
    rw [List.length_append]
    omega
  have hrest : text = (pre' ++ taken) ++ (rest ++ post) := by
    rw [ht', List.append_assoc]
  have hmore {docs' : List String} (first' : Nat) (hf : first' ≤ (pre' ++ taken).length)
      (hd : AreDocLines text first' (pre' ++ taken).length docs') :
      HaveSpans text first' (pre' ++ taken ++ rest).length
        (ofText file owner (1 + lineFeeds (pre' ++ taken)) docs' rest).records :=
    ih rest.length (by simp only [List.length_append]; omega) hrest rfl hf hd rfl
  cases piece with
  | docLine doc =>
    by_cases hr : rest = []
    · rw [afterPiece, hr, ofText_of_blank rfl]
      exact HaveSpans.nil
    · exact hmore first (by omega) (hd'.concat hf' (isDocLineAt_of_next ht' hn hr) hlt)
  | remark => exact hmore first (by omega) (hd'.mono hlt.le)
  | openAttribute fault => exact hmore first (by omega) (hd'.mono hlt.le)
  | function item =>
    have hat := isAt_of_next ht' hn hne hf' hd' owner file
    have hrecord : HaveSpans text first (pre' ++ taken).length _ :=
      HaveSpans.single hat (Nat.le_refl _) (Nat.le_refl _)
    exact hrecord.append (hmore (pre' ++ taken).length (Nat.le_refl _) .nil) (by omega) (by simp)
  | ownerBlock blockOwner feeds inner =>
    obtain ⟨front, htaken, rfl⟩ := Piece.ownerBlock_of_next hn
    have hin : text = (pre' ++ (front ++ ['\x7b'])) ++ (inner ++ '\x7d' :: (rest ++ post)) := by
      rw [ht', htaken]
      simp only [List.append_assoc, List.cons_append, List.nil_append]
    have hfeeds : 1 + lineFeeds pre' + lineFeeds front =
        1 + lineFeeds (pre' ++ (front ++ ['\x7b'])) := by
      simp only [lineFeeds_append, Nat.add_assoc]
      rfl
    have hlen : inner.length < (blank ++ (taken ++ rest)).length := by
      rw [htaken]
      simp only [List.length_append, List.length_cons]
      omega
    have hinner : HaveSpans text (pre' ++ (front ++ ['\x7b'])).length
        (pre' ++ (front ++ ['\x7b']) ++ inner).length
        (ofText file (some blockOwner) (1 + lineFeeds pre' + lineFeeds front) [] inner).records :=
      ih inner.length hlen hin hfeeds (Nat.le_refl _) .nil rfl
    have hblock : HaveSpans text first (pre' ++ taken).length _ := hinner.mono
      (by rw [List.length_append]; omega)
      (by rw [htaken]; simp only [List.length_append, List.length_cons]; omega)
    exact hblock.append (hmore (pre' ++ taken).length (Nat.le_refl _) .nil) (by omega) (by simp)
  | rejected fault itemOwner => exact hmore first (by omega) .nil
  | other => exact hmore first (by omega) .nil

/-- The diagnostics of a text are about its lines, in order. -/
theorem areLines_ofText : AreLines line (line + lineFeeds s)
    ((ofText file owner line docs s).diagnostics.map Diagnostic.line) := by
  induction hlen : s.length using Nat.strong_induction_on generalizing owner line docs s with
  | _ n ih =>
  subst hlen
  by_cases hs : trimStart s = []
  · rw [ofText_of_blank hs]
    exact AreLines.nil
  obtain ⟨blank, taken, rest, piece, rfl, hne, hn, hstep⟩ := exists_piece hs
  have hpos := List.length_pos_iff.2 hne
  rw [hstep, ← List.append_assoc blank, lineFeeds_append (blank ++ taken), ← Nat.add_assoc]
  have hblank : line ≤ line + lineFeeds blank := Nat.le_add_right _ _
  have htaken : line + lineFeeds blank ≤ line + lineFeeds (blank ++ taken) := by
    rw [lineFeeds_append]
    omega
  have hrest (docs' : List String) : AreLines (line + lineFeeds (blank ++ taken))
      (line + lineFeeds (blank ++ taken) + lineFeeds rest)
      ((ofText file owner (line + lineFeeds (blank ++ taken)) docs' rest).diagnostics.map
        Diagnostic.line) :=
    ih rest.length (by simp only [List.length_append]; omega) rfl
  cases piece with
  | docLine doc => exact (hrest _).mono (hblank.trans htaken) (Nat.le_refl _)
  | remark => exact (hrest _).mono (hblank.trans htaken) (Nat.le_refl _)
  | openAttribute fault =>
    exact ((hrest _).cons htaken (by omega)).mono hblank (Nat.le_refl _)
  | function item => exact (hrest _).mono (hblank.trans htaken) (Nat.le_refl _)
  | ownerBlock blockOwner feeds inner =>
    obtain ⟨front, rfl, rfl⟩ := Piece.ownerBlock_of_next hn
    have hinner : AreLines (line + lineFeeds blank + lineFeeds front)
        (line + lineFeeds blank + lineFeeds front + lineFeeds inner)
        ((ofText file (some blockOwner) (line + lineFeeds blank + lineFeeds front) [] inner)
          |>.diagnostics.map Diagnostic.line) :=
      ih inner.length (by simp only [List.length_append, List.length_cons]; omega) rfl
    have hlast : line + lineFeeds blank + lineFeeds front + lineFeeds inner ≤
        line + lineFeeds (blank ++ (front ++ '\x7b' :: (inner ++ ['\x7d']))) := by
      simp only [lineFeeds, List.count_append, List.count_cons]
      omega
    rw [afterPiece, append_eq, List.map_append]
    exact (hinner.mono (by omega) hlast).append (hrest _) (by omega) (Nat.le_add_right _ _)
  | rejected fault itemOwner =>
    exact ((hrest _).cons htaken (by omega)).mono hblank (Nat.le_refl _)
  | other => exact (hrest _).mono (hblank.trans htaken) (Nat.le_refl _)

end Outcome

/-- Records come from pieces of the text that do not overlap, in the order of the text, and the
diagnostics are in its order too. -/
theorem parseSource_haveSpans (file : String) (text : List Char) :
    HaveSpans text 0 text.length (parseSource file text).records ∧
      ((parseSource file text).diagnostics.map Diagnostic.line).Pairwise (· ≤ ·) := by
  refine ⟨?_, Outcome.areLines_ofText.sorted⟩
  have h : HaveSpans text 0 ([] ++ text).length (parseSource file text).records :=
    Outcome.ofText_haveSpans (List.append_nil text).symm rfl (Nat.le_refl _) AreDocLines.nil
  exact h

end ApiSurface
