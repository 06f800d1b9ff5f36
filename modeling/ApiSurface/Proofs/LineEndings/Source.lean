import ApiSurface.Proofs.LineEndings.Function
import ApiSurface.Proofs.Source.Outcome

namespace ApiSurface

open Text TopLevel

variable {n : Nat} {s s' : List Char}

/-- The same piece of both texts, of at most `n` characters. -/
inductive Piece.SameLines (n : Nat) : Piece → Piece → Prop
  | docLine {text : String} : SameLines n (.docLine text) (.docLine text)
  | remark : SameLines n .remark .remark
  | openAttribute {fault fault' : Fault} (h : fault.SameLines fault') :
    SameLines n (.openAttribute fault) (.openAttribute fault')
  | function {item : FunctionItem} : SameLines n (.function item) (.function item.crlf)
  | ownerBlock {owner : String} {feeds : Nat} {inner inner' : List Char}
    (h : Text.SameLines n inner inner') :
    SameLines n (.ownerBlock owner feeds inner) (.ownerBlock owner feeds inner')
  | rejected {fault fault' : Fault} {owner : Option String} (h : fault.SameLines fault') :
    SameLines n (.rejected fault owner) (.rejected fault' owner)
  | other : SameLines n .other .other

namespace Piece

/-- What a piece taken from one text and the rest after it have to do with those of the other. -/
def Follows (n : Nat) (found found' : Piece × List Char) : Prop :=
  SameLines n found.1 found'.1 ∧ Text.SameLines n found.2 found'.2

theorem afterItem_sameLines (h : Text.SameLines n s s') :
    Text.SameLines n (afterItem s) (afterItem s') := by
  have hend := h.header.2
  have hk := hend.keyword? whereWord (by decide)
  have hrest : Text.SameLines n
      ((keyword? whereWord (header s).2).elim (header s).2 fun clause => (header clause).2)
      ((keyword? whereWord (header s').2).elim (header s').2 fun clause => (header clause).2) := by
    generalize keyword? whereWord (header s).2 = found,
      keyword? whereWord (header s').2 = found' at hk ⊢
    cases hk with
    | none => exact hend
    | some hk => exact hk.header.2.mono (Nat.sub_le _ _)
  unfold afterItem
  dsimp only
  generalize (keyword? whereWord (header s).2).elim (header s).2 (fun clause => (header clause).2) = u,
    (keyword? whereWord (header s').2).elim (header s').2 (fun clause => (header clause).2) = u'
    at hrest ⊢
  split
  · rename_i block
    obtain ⟨block', rfl, ht⟩ := hrest.cons_left (by decide)
    have he := ht.enclosed .curly
    simp only [Bracket.opener] at he ⊢
    generalize Bracket.enclosed ('\x7b' :: block) = x,
      Bracket.enclosed ('\x7b' :: block') = x' at he ⊢
    cases he with
    | ok hp => exact hp.2.mono (Nat.sub_le n 1)
    | error => exact .nil
  · obtain ⟨t, rfl, ht⟩ := hrest.cons_left (by decide)
    exact ht.mono (Nat.sub_le n 1)
  · rename_i hbrace hsemi
    split
    · exact (hrest.false_of_cons (by decide) hbrace).elim
    · exact (hrest.false_of_cons (by decide) hsemi).elim
    · exact h.afterLine

theorem afterSemicolon_sameLines (h : Text.SameLines n s s') :
    Text.SameLines n (afterSemicolon s) (afterSemicolon s') := by
  unfold afterSemicolon
  obtain ⟨hd, hd'⟩ | ⟨t, t', hd, hd', ht⟩ := h.dropWhile_ne (c := ';') (by decide) (by decide)
  · rw [hd, hd']
    exact h.afterLine
  · rw [hd, hd']
    exact ht.mono (Nat.sub_le n 1)

/-- The carriage return at the end of a doc line is not a part of it. -/
theorem docText_eq (h : Text.SameLines n s s') : docText s' = docText s := by
  have hline : s'.takeWhile (· != '\n') = s.takeWhile (· != '\n') ∨
      s'.takeWhile (· != '\n') = s.takeWhile (· != '\n') ++ ['\r'] := by
    induction h with
    | nil => exact .inl rfl
    | @char n c s s' hn hr more ih =>
      have hc : (c != '\n') = true := bne_iff_ne.2 hn
      rw [List.takeWhile_cons_of_pos (p := (· != '\n')) hc,
        List.takeWhile_cons_of_pos (p := (· != '\n')) hc]
      exact ih.imp (fun h => by rw [h]) fun h => by rw [h, List.cons_append]
    | feed => exact .inr rfl
  unfold docText
  rcases hline with hl | hl
  · rw [hl]
  · rw [hl, dropEndWhile_concat, if_pos (by decide)]

theorem ofAttribute_follows (h : Text.SameLines n s s') :
    Follows n (ofAttribute s) (ofAttribute s') := by
  unfold ofAttribute
  obtain ⟨hd, hd'⟩ | ⟨t, t', hd, hd', ht⟩ := h.dropWhile_ne (c := '[') (by decide) (by decide)
  · rw [hd, hd']
    exact ⟨.openAttribute (.malformedSignature (crlfString_eq_self (by decide)).symm), h.afterLine⟩
  · rw [hd, hd']
    have he := ht.enclosed .square
    simp only [Bracket.opener] at he
    generalize Bracket.enclosed ('[' :: t) = x, Bracket.enclosed ('[' :: t') = x' at he ⊢
    cases he with
    | ok hp => exact ⟨.remark, hp.2.mono (Nat.sub_le n 1)⟩
    | error he => exact ⟨.openAttribute he, h.afterLine⟩

theorem ofFunction_follows (h : Text.SameLines n s s') :
    Follows n (ofFunction s) (ofFunction s') := by
  have hread := FunctionItem.read_agree _ _ h
  unfold ofFunction
  generalize FunctionItem.read s = x, FunctionItem.read s' = x' at hread ⊢
  cases hread with
  | @ok p p' hp =>
    obtain ⟨item, rest⟩ := p
    obtain ⟨item', rest'⟩ := p'
    obtain ⟨hitem, hrest⟩ := hp
    obtain rfl : item' = item.crlf := hitem
    exact ⟨.function, hrest⟩
  | error he => exact ⟨.rejected he, afterItem_sameLines h⟩

theorem ofBlock_follows (h : Text.SameLines n s s') : Follows n (ofBlock s) (ofBlock s') := by
  have hread := Target.read_agree h
  unfold ofBlock
  generalize Target.read s = x, Target.read s' = x' at hread ⊢
  cases hread with
  | error he => exact ⟨.rejected he, afterItem_sameLines h⟩
  | @ok p p' hp =>
    obtain ⟨owner, block⟩ := p
    obtain ⟨owner', block'⟩ := p'
    obtain ⟨howner, t, t', hblock, hblock', ht⟩ := hp
    dsimp only at howner hblock hblock'
    subst howner hblock hblock'
    have he := ht.enclosed .curly
    have hfeeds : lineFeeds ('\x7b' :: t') = lineFeeds ('\x7b' :: t) :=
      (Text.SameLines.char (by decide) (by decide) ht).lineFeeds_eq
    simp only [Bracket.opener] at he
    dsimp only
    generalize Bracket.enclosed ('\x7b' :: t) = y, Bracket.enclosed ('\x7b' :: t') = y' at he ⊢
    cases he with
    | ok hp =>
      rw [hfeeds, h.lineFeeds_eq]
      exact ⟨.ownerBlock hp.1, hp.2⟩
    | error he => exact ⟨.rejected he, afterItem_sameLines h⟩

theorem ofItem_follows (h : Text.SameLines n s s') : Follows n (ofItem s) (ofItem s') := by
  have hread := Lead.read_agree _ _ h
  unfold ofItem
  generalize Lead.read s = x, Lead.read s' = x' at hread ⊢
  cases hread with
  | error => exact ⟨.other, h.afterLine⟩
  | @ok p p' hp =>
    have hk := hp.2.isSome_keyword?
    dsimp only
    rw [hk FunctionItem.fnWord (by decide), hk Target.implWord (by decide),
      hk "trait".toList (by decide), hk "use".toList (by decide)]
    split
    · exact ofFunction_follows h
    split
    · exact ofBlock_follows h
    split
    · exact ⟨.other, afterItem_sameLines h⟩
    split
    · exact ⟨.remark, afterSemicolon_sameLines h⟩
    · exact ⟨.other, h.afterLine⟩

/-- Both texts have the same piece in front, and the same rest behind it. -/
theorem next_follows (h : Text.SameLines n s s') : Follows n (next s) (next s') := by
  have hslashes := h.strip? "///".toList (by decide)
  unfold next
  generalize strip? "///".toList s = found, strip? "///".toList s' = found' at hslashes ⊢
  cases hslashes with
  | @some t t' ht =>
    simp only [ht.head?_eq_some_iff (c := '/') (by decide) (by decide), docText_eq ht]
    split
    · exact ⟨.remark, h.afterLine⟩
    · exact ⟨.docLine, h.afterLine⟩
  | none =>
    dsimp only
    rw [h.startsWith_eq "//".toList (by decide),
      h.startsWith_eq "/*".toList (by decide),
      h.startsWith_eq "#[".toList (by decide),
      h.startsWith_eq "#![".toList (by decide)]
    split
    · exact ⟨.remark, h.afterLine⟩
    split
    · exact ⟨.remark, h.afterMark (by decide) (by decide)⟩
    split
    · exact ofAttribute_follows h
    · exact ofItem_follows h

end Piece

def FunctionRecord.crlf (r : FunctionRecord) : FunctionRecord :=
  { r with signature := r.signature.crlf, body := crlfString r.body }

def Diagnostic.crlf (d : Diagnostic) : Diagnostic := { d with message := crlfString d.message }

theorem Diagnostic.ofFault_crlf {fault fault' : Fault} (h : fault.SameLines fault') (file : String)
    (line : Nat) (owner : Option String) :
    ofFault file line fault' owner = (ofFault file line fault owner).crlf := by
  rw [ofFault, h.kind, h.message]
  rfl

namespace Outcome

/-- What is quoted of the text gets the other line endings. -/
def crlf (o : Outcome) : Outcome :=
  ⟨o.records.map FunctionRecord.crlf, o.diagnostics.map Diagnostic.crlf⟩

theorem crlf_append (a b : Outcome) : (a ++ b).crlf = a.crlf ++ b.crlf := by
  simp only [append_eq, crlf, List.map_append]

/-- One step of both texts: the same piece, and lines that have the same numbers. -/
theorem exists_step {file : String} {owner : Option String} {line : Nat} {docs : List String}
    {piece : Piece} {rest : List Char} (h : SameLines n s s') (hs : trimStart s ≠ [])
    (hn : Piece.next (trimStart s) = (piece, rest)) :
    ∃ piece' rest', Piece.SameLines n piece piece' ∧ SameLines n rest rest' ∧
      ofText file owner line docs s' = afterPiece file owner (lineAt line s (trimStart s))
        (lineAt (lineAt line s (trimStart s)) (trimStart s) rest) docs rest' piece' := by
  have hstart := h.trimStart
  obtain ⟨piece', rest', hn'⟩ : ∃ piece' rest', Piece.next (trimStart s') = (piece', rest') :=
    ⟨_, _, rfl⟩
  obtain ⟨hpiece, hrest⟩ := Piece.next_follows hstart
  rw [hn, hn'] at hpiece hrest
  refine ⟨piece', rest', hpiece, hrest, ?_⟩
  rw [ofText_of_next (fun he => hs (hstart.eq_nil_iff.1 he)) hn', h.lineAt_eq hstart,
    hstart.lineAt_eq hrest]

/-- The pieces of both texts follow one another alike, on the same lines. -/
theorem ofText_crlf {file : String} {owner : Option String} {line : Nat} {docs : List String}
    (h : SameLines n s s') :
    ofText file owner line docs s' = (ofText file owner line docs s).crlf := by
  fun_induction ofText file owner line docs s generalizing n s'
  case case1 hs => exact ofText_of_blank (h.trimStart.eq_nil_iff.2 hs)
  case case2 hs _ _ _ _ hn _ ih | case3 hs _ _ _ hn _ ih | case8 hs _ _ _ hn _ ih =>
    obtain ⟨_, rest', ⟨⟩, hrest, he⟩ := exists_step h hs hn
    rw [he]
    exact ih hrest
  case case4 hs _ _ _ _ fault hn _ ih =>
    obtain ⟨_, rest', hpiece, hrest, he⟩ := exists_step h hs hn
    cases hpiece with
    | openAttribute hfault =>
      rw [he, crlf_append, afterPiece, ih hrest, Diagnostic.ofFault_crlf hfault]
      rfl
  case case5 hs _ _ _ item hn _ ih =>
    obtain ⟨_, rest', ⟨⟩, hrest, he⟩ := exists_step h hs hn
    rw [he, crlf_append, afterPiece, ih hrest]
    rfl
  case case6 hs _ _ _ blockOwner feeds inner hn _ ihInner ih =>
    obtain ⟨_, rest', hpiece, hrest, he⟩ := exists_step h hs hn
    cases hpiece with
    | ownerBlock hinner => rw [he, crlf_append, afterPiece, ih hrest, ihInner hinner]
  case case7 hs _ _ _ _ fault itemOwner hn _ ih =>
    obtain ⟨_, rest', hpiece, hrest, he⟩ := exists_step h hs hn
    cases hpiece with
    | rejected hfault =>
      rw [he, crlf_append, afterPiece, ih hrest, Diagnostic.ofFault_crlf hfault]
      rfl

end Outcome

/-- The other line endings change nothing but what is quoted of the text: bodies, scopes, interfaces,
lengths of arrays and messages. -/
theorem parseSource_crlf (file : String) {text : List Char} (h : '\r' ∉ text) :
    parseSource file (crlf text) = (parseSource file text).crlf :=
  Outcome.ofText_crlf (.of_crlf h)

theorem parseSource_crlf_array :
    '\r' ∉ "/// A.\nfn f(a: [u8; 1 +\n2]) \x7b\n\x7d\nfn g(\n".toList ∧
      parseSource "a.rs" (crlf "/// A.\nfn f(a: [u8; 1 +\n2]) \x7b\n\x7d\nfn g(\n".toList) =
        (parseSource "a.rs" "/// A.\nfn f(a: [u8; 1 +\n2]) \x7b\n\x7d\nfn g(\n".toList).crlf := by
  have h : '\r' ∉ "/// A.\nfn f(a: [u8; 1 +\n2]) \x7b\n\x7d\nfn g(\n".toList := by decide
  exact ⟨h, parseSource_crlf "a.rs" h⟩

end ApiSurface
