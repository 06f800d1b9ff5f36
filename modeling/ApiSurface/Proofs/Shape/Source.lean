import ApiSurface.Proofs.Shape.Function
import ApiSurface.Proofs.Source.RoundTrip
import ApiSurface.Proofs.Source.Spans

namespace ApiSurface

open Text

/-- What the kinds of diagnostics can be. -/
def Fault.itemKinds : List String :=
  ["UnmatchedDelimiter", "InvalidIdentifier", "MalformedArgumentList", "MalformedSignature"]

theorem Fault.kindName_mem_itemKinds {fault : Fault} (h : fault.isItemLocal = true) :
    fault.kindName ∈ itemKinds := by
  cases fault
  case unmatchedBracket | invalidIdentifier | malformedParameters | malformedSignature =>
    simp [itemKinds, kindName]
  all_goals cases h

/-- What every record is that is read from a text. -/
structure FunctionRecord.Regular (text : List Char) (r : FunctionRecord) : Prop where
  signature : r.signature.Regular
  owner : ∀ owner ∈ r.owner, isIdentifier owner.toList = true
  docs : ∀ doc ∈ r.docLines, IsDocLine doc.toList
  body : Bracket.curly.IsBalanced r.body.toList
  line : 1 ≤ r.line ∧ r.line ≤ 1 + lineFeeds text

namespace Piece

/-- What a piece says, whatever the text it was taken from. -/
def Regular : Piece → Prop
  | .docLine text => IsDocLine text.toList
  | .openAttribute fault | .rejected fault _ => fault.isItemLocal = true
  | .function item => item.signature.Regular
  | .ownerBlock owner _ _ => isIdentifier owner.toList = true
  | .remark | .other => True

theorem isDocLine_docText {s : List Char} (hs : s.head? ≠ some '/') :
    IsDocLine (docText s).toList := by
  have hpre : dropEndWhile (· == '\r') (s.takeWhile (· != '\n')) <+: s.takeWhile (· != '\n') :=
    dropEndWhile_isPrefix _ _
  rw [docText, String.toList_ofList]
  refine ⟨fun hm => ?_, fun hm => hs ?_, ?_⟩
  · simpa using List.all_eq_true.1 List.all_takeWhile _ (hpre.subset hm)
  · obtain ⟨rest, hrest⟩ := hpre.trans (List.takeWhile_prefix _)
    rw [← hrest, List.head?_append, hm]
    rfl
  · rw [dropEndWhile, List.getLast?_reverse]
    intro hm
    have h := List.head?_dropWhile_not (· == '\r') (s.takeWhile (· != '\n')).reverse
    rw [hm] at h
    cases h

theorem ofFunction_regular (s : List Char) : (ofFunction s).1.Regular := by
  unfold ofFunction
  split
  · exact (FunctionItem.read_yields s).of_ok ‹_›
  · exact (FunctionItem.read_yields s).of_error ‹_›

theorem ofBlock_regular (s : List Char) : (ofBlock s).1.Regular := by
  unfold ofBlock
  split
  · exact (Target.read_yields s).of_error ‹_›
  · rename_i block hr
    split
    · exact (Target.read_yields s).of_ok hr
    · exact (enclosed_yields block).of_error ‹_›

theorem ofAttribute_regular (s : List Char) : (ofAttribute s).1.Regular := by
  unfold ofAttribute
  split
  · trivial
  · exact (enclosed_yields _).of_error ‹_›

theorem next_regular (s : List Char) : (next s).1.Regular := by
  unfold next
  split
  · split
    · trivial
    · exact isDocLine_docText ‹_›
  repeat' split
  · trivial
  · trivial
  · exact ofAttribute_regular s
  · unfold ofItem
    repeat' split
    · trivial
    · exact ofFunction_regular s
    · exact ofBlock_regular s
    all_goals trivial

theorem regular_of_next {s rest : List Char} {piece : Piece} (h : next s = (piece, rest)) :
    piece.Regular := by
  have hnext := next_regular s
  rwa [h] at hnext

end Piece

namespace Outcome

variable {file : String} {owner : Option String} {line : Nat} {docs : List String} {s : List Char}

/-- What is read from a text, apart from where it stands there. -/
structure Regular (o : Outcome) : Prop where
  signatures : ∀ r ∈ o.records, r.signature.Regular
  owners : ∀ r ∈ o.records, ∀ owner ∈ r.owner, isIdentifier owner.toList = true
  docs : ∀ r ∈ o.records, ∀ doc ∈ r.docLines, IsDocLine doc.toList
  kinds : ∀ d ∈ o.diagnostics, d.kind ∈ Fault.itemKinds

theorem Regular.empty : empty.Regular :=
  ⟨List.forall_mem_nil _, List.forall_mem_nil _, List.forall_mem_nil _, List.forall_mem_nil _⟩

theorem Regular.ofRecord {r : FunctionRecord} (hs : r.signature.Regular)
    (ho : ∀ owner ∈ r.owner, isIdentifier owner.toList = true)
    (hd : ∀ doc ∈ r.docLines, IsDocLine doc.toList) : (ofRecord r).Regular :=
  ⟨List.forall_mem_singleton.2 hs, List.forall_mem_singleton.2 ho, List.forall_mem_singleton.2 hd,
    List.forall_mem_nil _⟩

theorem Regular.append {a b : Outcome} (ha : a.Regular) (hb : b.Regular) : (a ++ b).Regular :=
  ⟨List.forall_mem_append.2 ⟨ha.signatures, hb.signatures⟩,
    List.forall_mem_append.2 ⟨ha.owners, hb.owners⟩, List.forall_mem_append.2 ⟨ha.docs, hb.docs⟩,
    List.forall_mem_append.2 ⟨ha.kinds, hb.kinds⟩⟩

theorem Regular.ofFault {fault : Fault} (h : fault.isItemLocal = true) :
    (ofDiagnostic (.ofFault file line fault owner)).Regular :=
  ⟨List.forall_mem_nil _, List.forall_mem_nil _, List.forall_mem_nil _,
    List.forall_mem_singleton.2 (Fault.kindName_mem_itemKinds h)⟩

/-- Below doc lines and in a block with an owner that are regular, all is that is read. -/
theorem ofText_regular (ho : ∀ name ∈ owner, isIdentifier name.toList = true)
    (hd : ∀ doc ∈ docs, IsDocLine doc.toList) : (ofText file owner line docs s).Regular := by
  -- The docs that wait are kept by a further doc line, and dropped by what they stand on.
  fun_induction ofText file owner line docs s with
  | case1 => exact Regular.empty
  | case2 owner line docs s _ _ rest _ text hn _ ih =>
    have hdoc : IsDocLine text.toList := Piece.regular_of_next hn
    exact ih ho (List.forall_mem_append.2 ⟨hd, List.forall_mem_singleton.2 hdoc⟩)
  | case3 owner line docs s _ _ rest _ hn _ ih => exact ih ho hd
  | case4 owner line docs s _ _ _ rest _ fault hn _ ih =>
    have hfault : fault.isItemLocal = true := Piece.regular_of_next hn
    exact (Regular.ofFault hfault).append (ih ho hd)
  | case5 owner line docs s _ _ rest _ item hn _ ih =>
    have hitem : item.signature.Regular := Piece.regular_of_next hn
    exact (Regular.ofRecord hitem ho hd).append (ih ho (by simp))
  | case6 owner line docs s _ _ rest _ blockOwner feeds inner hn _ ihInner ih =>
    have howner : isIdentifier blockOwner.toList = true := Piece.regular_of_next hn
    have hinner := ihInner (fun name h => Option.some.inj h ▸ howner) (by simp)
    exact hinner.append (ih ho (by simp))
  | case7 owner line docs s _ _ _ rest _ fault itemOwner hn _ ih =>
    have hfault : fault.isItemLocal = true := Piece.regular_of_next hn
    exact (Regular.ofFault hfault).append (ih ho (by simp))
  | case8 owner line docs s _ _ rest _ hn _ ih => exact ih ho (by simp)

end Outcome

theorem HaveSpans.exists_isAt {text : List Char} {first last : Nat} {records : List FunctionRecord}
    (h : HaveSpans text first last records) {r : FunctionRecord} (hr : r ∈ records) :
    ∃ span, r.IsAt text span := by
  obtain ⟨spans, hat, -⟩ := h
  induction hat with
  | nil => cases hr
  | cons hspan _ ih =>
    obtain rfl | hr := List.mem_cons.1 hr
    · exact ⟨_, hspan⟩
    · exact ih hr

/-- Everything that is read from a source text has its shape, whatever the text. -/
theorem parseSource_regular (file : String) (text : List Char) :
    (∀ r ∈ (parseSource file text).records, r.Regular text) ∧
      ∀ d ∈ (parseSource file text).diagnostics, d.kind ∈ Fault.itemKinds := by
  have hshape : (parseSource file text).Regular := Outcome.ofText_regular (by simp) (by simp)
  have hspans : HaveSpans text 0 ([] ++ text).length (parseSource file text).records :=
    Outcome.ofText_haveSpans (List.append_nil text).symm rfl (Nat.le_refl _) AreDocLines.nil
  refine ⟨fun r hr => ?_, hshape.kinds⟩
  obtain ⟨span, hspan⟩ := hspans.exists_isAt hr
  refine ⟨hshape.signatures r hr, hshape.owners r hr, hshape.docs r hr, hspan.balanced, ?_⟩
  have hfeeds : lineFeeds (text.take span.header) ≤ lineFeeds text :=
    (List.take_sublist _ _).count_le _
  rw [hspan.line]
  omega

end ApiSurface
