import ApiSurface.Proofs.Source.Function
import ApiSurface.Proofs.Source.Owner
import ApiSurface.Proofs.TypeExpr.Words

namespace ApiSurface

open Text TopLevel
open ApiSurface.Bracket (IsNested Passes)

/-- The path of a named type, also behind references. -/
inductive TypeExpr.Names : TypeExpr → String → Prop
  | named (path : String) (generics : List GenericArg) : (TypeExpr.named path generics).Names path
  | reference {inner : TypeExpr} {path : String} (isMutable : Bool) (lifetime : Option String)
      (h : inner.Names path) : (TypeExpr.reference isMutable lifetime inner).Names path

theorem TypeExpr.Names.ownerName?_eq {t : TypeExpr} {path : String} (h : t.Names path)
    (ht : t.WellFormed) : ∃ owner, (pathSegments path.toList).getLast? = some owner ∧
      t.ownerName? = some (String.ofList owner) := by
  induction h with
  | named path generics =>
    cases ht with
    | named hp =>
      obtain ⟨first, more, hf, -, hm, he⟩ := hp
      rw [TypeExpr.ownerName?, he, pathSegments_eq hf hm, Signature.lastSegment_segments hf hm]
      exact ⟨_, List.getLast?_eq_getLast_of_ne_nil _, rfl⟩
  | reference isMutable lifetime _ ih =>
    cases ht with
    | reference _ ht => exact ih ht

/-- What stands between the word `impl` and the brace. -/
structure BlockHead where
  /-- The text in angle brackets. -/
  generics : Option (List Char)
  trait : Option TypeExpr
  target : TypeExpr
  /-- The text after the word `where`. -/
  clause : Option (List Char)

namespace BlockHead

open Target (implWord forWord)

def genericsChars (h : BlockHead) : List Char :=
  h.generics.elim [] fun generics => '<' :: generics ++ ['>']

/-- The trait and the type. -/
def namesChars (h : BlockHead) : List Char :=
  h.trait.elim h.target.chars fun t => t.chars ++ ' ' :: (forWord ++ ' ' :: h.target.chars)

def clauseChars (h : BlockHead) : List Char :=
  h.clause.elim [] fun clause => whereWord ++ ' ' :: (clause ++ [' '])

/-- What stands behind the word `impl`. -/
def partChars (h : BlockHead) : List Char :=
  h.genericsChars ++ ' ' :: (h.namesChars ++ ' ' :: h.clauseChars)

def chars (h : BlockHead) : List Char := implWord ++ h.partChars

/-- The words that part a head. -/
def partWords : List (List Char) := [forWord, whereWord]

/-- A type in which no word is taken for a part of the head. -/
def IsPart (t : TypeExpr) : Prop := t.WellFormed ∧ ∀ word ∈ partWords, word ∉ t.words

structure WellFormed (h : BlockHead) : Prop where
  /-- A hyphen at the end would make an arrow of the closing angle. -/
  generics : ∀ generics ∈ h.generics, IsNested generics ∧ generics.getLast? ≠ some '-'
  trait : ∀ t ∈ h.trait, IsPart t
  target : IsPart h.target
  clause : ∀ clause ∈ h.clause, IsHeader clause

theorem isForeign_of_mem_partWords {word : List Char} (h : word ∈ partWords) : IsForeign word := by
  simp only [partWords, List.mem_cons, List.not_mem_nil, or_false] at h
  rcases h with rfl | rfl <;> exact ⟨by decide, by decide⟩

section Names

variable {t : TypeExpr}

theorem IsPart.lacksWord (h : IsPart t) {w : List Char} (hw : w ∈ partWords) : LacksWord w t.chars :=
  h.1.lacksWord (isForeign_of_mem_partWords hw) (h.2 w hw)

theorem IsPart.isHeader (h : IsPart t) : IsHeader t.chars :=
  h.1.isHeader (h.lacksWord (List.mem_cons_of_mem _ List.mem_cons_self)).absent

variable {h : BlockHead}

theorem WellFormed.isHeader_namesChars (hw : h.WellFormed) : IsHeader h.namesChars := by
  have htarget := hw.target.isHeader
  rw [namesChars]
  cases ht : h.trait with
  | none => exact htarget
  | some t =>
    have hfor : IsHeader (forWord ++ ' ' :: h.target.chars) :=
      (IsHeader.of_isIdentifier (by decide) (by decide)).append htarget.blank_cons rfl
    exact (hw.trait t ht).isHeader.append hfor.blank_cons rfl

/-- A part begins with no blank and no angle bracket. -/
theorem WellFormed.first_namesChars (hw : h.WellFormed) (rest : List Char) :
    trimStart (h.namesChars ++ rest) = h.namesChars ++ rest ∧
      (h.namesChars ++ rest).head? ≠ some '<' := by
  have hpart {t : TypeExpr} (ht : IsPart t) (rest : List Char) :
      trimStart (t.chars ++ rest) = t.chars ++ rest ∧ (t.chars ++ rest).head? ≠ some '<' :=
    ⟨ht.1.tight.trimStart_append rest, ht.1.head?_ne (by decide) (by decide) rest⟩
  rw [namesChars]
  cases ht : h.trait with
  | none => exact hpart hw.target rest
  | some t =>
    rw [Option.elim_some, List.append_assoc]
    exact hpart (hw.trait t ht) _

/-- The type is told by what stands between the generic parameters and the clause. -/
theorem WellFormed.typeText_namesChars (hw : h.WellFormed) {gap : List Char}
    (hg : gap = [] ∨ gap = [' ']) : ∃ blank, isBlankText blank = true ∧
      Target.typeText (gap ++ (h.namesChars ++ [' '])) = blank ++ (h.target.chars ++ [' ']) := by
  have hblank : Passes endsWord [' '] := Passes.of_forall (by decide)
  have hgap {s : List Char} (hs : LacksWord forWord s) : LacksWord forWord (gap ++ s) := by
    rcases hg with rfl | rfl
    · exact hs
    · exact LacksWord.passes_append rfl hblank hs
  have htarget := hw.target.lacksWord (w := forWord) List.mem_cons_self
  rw [namesChars]
  cases ht : h.trait with
  | none =>
    have hlacks := hgap (htarget.append rfl (.of_passes rfl hblank) rfl)
    refine ⟨gap, by rcases hg with rfl | rfl <;> rfl, ?_⟩
    rw [Option.elim_none, Target.typeText, splitKeyword?_eq_none rfl hlacks]
  | some t =>
    have htrait := hgap ((hw.trait t ht).lacksWord (w := forWord) List.mem_cons_self)
    have hsplit := splitKeyword?_append rfl htrait (h.target.chars ++ [' '])
    refine ⟨[' '], rfl, ?_⟩
    rw [Option.elim_some, Target.typeText]
    simp only [List.append_assoc, List.cons_append] at hsplit ⊢
    rw [hsplit]
    rfl

theorem WellFormed.ownerOfText_eq (hw : h.WellFormed) {blank : List Char}
    (hb : isBlankText blank = true) {owner : String} (ho : h.target.ownerName? = some owner) :
    Target.ownerOfText (blank ++ (h.target.chars ++ [' '])) = .ok owner := by
  have hread : TypeExpr.ofText (blank ++ (h.target.chars ++ [' '])) = .ok h.target :=
    TypeExpr.wholeWith_eq_ok (TypeExpr.read_chars hw.target.1 hb (Stops.blank rfl)) rfl
  rw [Target.ownerOfText, hread, ok_bind, ho]
  rfl

end Names

section Head

theorem continuesWord_partChars_append (h : BlockHead) (s : List Char) :
    continuesWord (h.partChars ++ s) = false := by
  rw [partChars, genericsChars]
  cases h.generics <;> rfl

variable {h : BlockHead}

/-- Generic parameters are passed over; at most a blank is left in front of what follows them. -/
theorem WellFormed.afterGenerics_eq (hw : h.WellFormed) (rest : List Char) :
    ∃ gap, (gap = [] ∨ gap = [' ']) ∧
      Target.afterGenerics (trimStart (h.genericsChars ++ ' ' :: (h.namesChars ++ rest))) =
        .ok (gap ++ (h.namesChars ++ rest)) := by
  obtain ⟨htrim, hfirst⟩ := hw.first_namesChars rest
  rw [genericsChars]
  cases hg : h.generics with
  | none =>
    refine ⟨[], .inl rfl, ?_⟩
    rw [Option.elim_none, List.nil_append, trimStart_cons_blank rfl, htrim,
      Target.afterGenerics_eq_ok hfirst, List.nil_append]
  | some generics =>
    obtain ⟨hn, hl⟩ := hw.generics generics hg
    have hlast : lastAfter start generics ≠ '-' := by
      rw [lastAfter_eq]
      cases hc : generics.getLast? with
      | none => decide
      | some c => exact fun he => hl (hc.trans (congrArg some he))
    have he : Bracket.enclosed ('<' :: (generics ++ '>' :: (' ' :: (h.namesChars ++ rest)))) =
        .ok (generics, ' ' :: (h.namesChars ++ rest)) :=
      hn.enclosed (b := .angle) (fun _ => hlast) _
    refine ⟨[' '], .inr rfl, ?_⟩
    rw [Option.elim_some, List.cons_append, List.cons_append, List.append_assoc, trimStart_cons rfl,
      Target.afterGenerics]
    exact map_eq_ok_iff.2 ⟨_, he, rfl⟩

/-- Behind the names a head ends, and its clause is passed over. -/
theorem WellFormed.exists_clause (hw : h.WellFormed) (block : List Char) :
    ∃ c tail, h.clauseChars ++ '\x7b' :: block = c :: tail ∧ endsHeader ' ' c tail = true ∧
      afterWhere (trimStart (c :: tail)) = '\x7b' :: block := by
  rw [clauseChars]
  cases hc : h.clause with
  | none =>
    refine ⟨'\x7b', block, rfl, rfl, ?_⟩
    rw [trimStart_cons rfl, afterWhere_brace]
  | some clause =>
    have hclause : IsHeader (' ' :: (clause ++ [' '])) :=
      ((hw.clause clause hc).append IsHeader.nil.blank_cons rfl).blank_cons
    have htext : (whereWord ++ ' ' :: (clause ++ [' '])) ++ '\x7b' :: block =
        whereWord ++ (' ' :: (clause ++ [' ']) ++ '\x7b' :: block) := List.append_assoc ..
    have hwhere : keyword? whereWord (whereWord ++ (' ' :: (clause ++ [' ']) ++ '\x7b' :: block)) = _ :=
      keyword?_append whereWord (continuesWord_blank _)
    refine ⟨'w', "here".toList ++ (' ' :: (clause ++ [' ']) ++ '\x7b' :: block), htext, ?_, ?_⟩
    · have hends : (keyword? whereWord ('w' :: ("here".toList ++
          (' ' :: (clause ++ [' ']) ++ '\x7b' :: block)))).isSome = true := by
        change (keyword? whereWord (whereWord ++ _)).isSome = true
        rw [hwhere]
        rfl
      rw [endsHeader, hends]
      rfl
    · rw [trimStart_cons rfl]
      change afterWhere (whereWord ++ _) = _
      rw [afterWhere, hwhere]
      dsimp only
      rw [hclause.header_brace block, trimStart_cons rfl]

theorem WellFormed.read_chars (hw : h.WellFormed) {owner : String}
    (ho : h.target.ownerName? = some owner) (block : List Char) :
    Target.read (h.chars ++ '\x7b' :: block) = .ok (owner, '\x7b' :: block) := by
  obtain ⟨c, tail, htail, hends, hafter⟩ := hw.exists_clause block
  obtain ⟨gap, hgap, hgenerics⟩ := hw.afterGenerics_eq (' ' :: c :: tail)
  have hnames : IsHeader (gap ++ h.namesChars) := by
    rcases hgap with rfl | rfl
    · exact hw.isHeader_namesChars
    · exact hw.isHeader_namesChars.blank_cons
  have hheader := hnames.header_blank_append hends
  obtain ⟨blank, hb, htype⟩ := hw.typeText_namesChars hgap
  have hparts : h.partChars ++ '\x7b' :: block =
      h.genericsChars ++ ' ' :: (h.namesChars ++ ' ' :: c :: tail) := by
    rw [partChars, ← htail]
    simp only [List.append_assoc, List.cons_append]
  rw [← hparts] at hgenerics
  rw [List.append_assoc] at hheader
  rw [chars, List.append_assoc,
    Target.read_of_header (h.continuesWord_partChars_append _) hgenerics hheader hafter,
    List.append_assoc, htype, hw.ownerOfText_eq hb ho]
  rfl

/-- A block with any of the parts in its head is the piece in front of any text. -/
theorem WellFormed.next_chars (hw : h.WellFormed) {owner : String}
    (ho : h.target.ownerName? = some owner) {inner : List Char}
    (hb : Bracket.curly.IsBalanced inner) (rest : List Char) :
    Piece.next (h.chars ++ '\x7b' :: (inner ++ '\x7d' :: rest)) =
      (.ownerBlock owner (lineFeeds h.chars) inner, rest) := by
  have hlead : Lead.read (h.chars ++ '\x7b' :: (inner ++ '\x7d' :: rest)) =
      .ok (⟨Signature.privateWord, []⟩,
        implWord ++ (h.partChars ++ '\x7b' :: (inner ++ '\x7d' :: rest))) := by
    rw [chars, List.append_assoc, Lead.read_implWord]
  exact Piece.next_of_read hlead (h.continuesWord_partChars_append _)
    (hw.read_chars ho (inner ++ '\x7d' :: rest)) hb

end Head

end BlockHead

namespace Outcome

/-- A block is entered whatever stands in its head: what it holds is what its text holds by itself,
further down, and belongs to the type by the last segment of its path. Each function of its text is
among the records with that owner. -/
theorem ofText_blockHead (file : String) {h : BlockHead} (hw : h.WellFormed) {path : String}
    (hp : h.target.Names path) {inner : List Char} (hb : Bracket.curly.IsBalanced inner) :
    ∃ owner, (pathSegments path.toList).getLast? = some owner ∧ ∀ rest,
      Piece.next (h.chars ++ '\x7b' :: (inner ++ '\x7d' :: rest)) =
        (.ownerBlock (String.ofList owner) (lineFeeds h.chars) inner, rest) ∧
      ∀ outer k docs,
        ofText file outer (1 + k) docs (h.chars ++ '\x7b' :: (inner ++ '\x7d' :: rest)) =
          ((parseSource file inner).inBlockOf (String.ofList owner)).movedDown (k + lineFeeds h.chars) ++
          (ofText file outer 1 [] rest).movedDown
            (k + lineFeeds (h.chars ++ '\x7b' :: (inner ++ ['\x7d']))) ∧
        ∀ item, HasFunction item inner →
          ∃ r ∈ (ofText file outer (1 + k) docs
              (h.chars ++ '\x7b' :: (inner ++ '\x7d' :: rest))).records,
            r.signature = item.signature ∧ r.body = item.body ∧ r.owner = some (String.ofList owner) := by
  obtain ⟨owner, hlast, ho⟩ := hp.ownerName?_eq hw.target.1
  refine ⟨owner, hlast, fun rest => ?_⟩
  have hn := hw.next_chars ho hb rest
  refine ⟨hn, fun outer k docs => ?_⟩
  have happend : h.chars ++ '\x7b' :: (inner ++ '\x7d' :: rest) =
      h.chars ++ '\x7b' :: (inner ++ ['\x7d']) ++ rest := by
    simp only [List.append_assoc, List.cons_append, List.nil_append]
  rw [happend] at hn ⊢
  have hs : h.chars ++ '\x7b' :: (inner ++ ['\x7d']) ++ rest ≠ [] := List.cons_ne_nil _ _
  have ht : trimStart (h.chars ++ '\x7b' :: (inner ++ ['\x7d']) ++ rest) =
      h.chars ++ '\x7b' :: (inner ++ ['\x7d']) ++ rest := trimStart_cons rfl
  refine ⟨ofText_ownerBlock_append hs ht hn k, fun item hi => ?_⟩
  obtain ⟨r, hr, he⟩ := hi.exists_record (some (String.ofList owner))
    (1 + k + lineFeeds h.chars) []
  rw [ofText_piece_append hs ht hn]
  exact ⟨r, mem_records_append.2 (.inl hr), he⟩

theorem ofText_blockHead_cell :
    let text := ("impl<'a, F: Fn(u8) -> u8> Visit<'a> for &'a mut store::Cell<F> " ++
      "where F: Clone, for<'b> F: Sync \x7b fn get() \x7b\x7d\n\x7d fn end() \x7b\x7d").toList
    Piece.next text = (.ownerBlock "Cell" 0 " fn get() \x7b\x7d\n".toList, " fn end() \x7b\x7d".toList) ∧
      (parseSource "a.rs" text).records.map (fun r => (r.name, r.owner, r.line)) =
        [("get", some "Cell", 1), ("end", none, 2)] ∧
      ∃ r ∈ (parseSource "a.rs" text).records, r.name = "get" ∧ r.owner = some "Cell" := by
  intro text
  let cell : TypeExpr := .named "store::Cell" [.type (.named "F" [])]
  let head : BlockHead := ⟨some "'a, F: Fn(u8) -> u8".toList, some (.named "Visit" [.lifetime "'a"]),
    .reference true (some "'a") cell, some "F: Clone, for<'b> F: Sync".toList⟩
  have hlife : IsLifetime "'a".toList := ⟨"a".toList, by decide, rfl⟩
  have hword {name : String} (h : isIdentifier name.toList = true ∧ name.toList ∉ reservedWords) :
      IsPath name.toList :=
    ⟨name.toList, [], h.1, h.2, List.forall_mem_nil _, (List.append_nil _).symm⟩
  have htrait : (TypeExpr.named "Visit" [.lifetime "'a"]).WellFormed :=
    .named (hword (by decide)) (List.forall_mem_singleton.2 (.lifetime hlife))
  have hcell : cell.WellFormed :=
    .named ⟨"store".toList, ["Cell".toList], by decide, by decide, by decide, rfl⟩
      (List.forall_mem_singleton.2 (.type (.named (hword (by decide)) (List.forall_mem_nil _))))
  have htarget : head.target.WellFormed :=
    .reference (fun l hl => Option.some.inj hl ▸ hlife) hcell
  have hhead : head.WellFormed := by
    refine ⟨?_, ?_, ⟨htarget, by decide +kernel⟩, ?_⟩
    · rintro _ ⟨⟩
      exact ⟨by decide, by decide⟩
    · rintro _ ⟨⟩
      exact ⟨htrait, by decide +kernel⟩
    · rintro _ ⟨⟩
      exact ⟨by decide, by decide⟩
  have hbody : Bracket.curly.IsBalanced " fn get() \x7b\x7d\n".toList := by decide
  obtain ⟨owner, ho, h⟩ :=
    ofText_blockHead "a.rs" hhead (.reference true (some "'a") (.named _ _)) hbody
  have hlast : (pathSegments "store::Cell".toList).getLast? = some "Cell".toList := by decide +kernel
  have htext : head.chars ++ '\x7b' :: (" fn get() \x7b\x7d\n".toList ++
      '\x7d' :: " fn end() \x7b\x7d".toList) =
      ("impl<'a, F: Fn(u8) -> u8> Visit<'a> for &'a mut store::Cell<F> " ++
        "where F: Clone, for<'b> F: Sync \x7b fn get() \x7b\x7d\n\x7d fn end() \x7b\x7d").toList := by
    decide +kernel
  have hfeeds : lineFeeds head.chars = 0 ∧ lineFeeds (head.chars ++
      '\x7b' :: (" fn get() \x7b\x7d\n".toList ++ ['\x7d'])) = 1 := by decide +kernel
  obtain ⟨hnext, hall⟩ := h " fn end() \x7b\x7d".toList
  obtain ⟨heq, hfunctions⟩ := hall none 0 []
  obtain rfl : "Cell".toList = owner := Option.some.inj (hlast.symm.trans ho)
  rw [htext] at hnext heq hfunctions
  rw [hfeeds.1] at hnext heq
  rw [hfeeds.2] at heq
  have hget : HasFunction ⟨⟨"get", "private", [], [], [], none⟩, ""⟩ " fn get() \x7b\x7d\n".toList :=
    .here (by decide) (show _ = (Piece.function _, ['\n']) by decide +kernel)
  refine ⟨hnext, ?_, ?_⟩
  · change (Outcome.records (ofText "a.rs" none (1 + 0) [] _)).map _ = _
    rw [heq]
    decide +kernel
  · obtain ⟨r, hr, hs, -, ho⟩ := hfunctions _ hget
    exact ⟨r, hr, congrArg Signature.name hs, ho⟩

end Outcome

end ApiSurface
