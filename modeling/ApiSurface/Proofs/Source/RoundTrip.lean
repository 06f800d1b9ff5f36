import ApiSurface.Proofs.Source.Block
import ApiSurface.Proofs.Source.Function
import ApiSurface.Proofs.Source.Outcome

namespace ApiSurface

open Text TopLevel

/-- A function as it is declared, wherever that is. -/
structure Declaration where
  docLines : List String
  signature : Signature
  body : String
  deriving DecidableEq, Repr

/-- A doc line that is read back: it is one line, no fourth slash begins it, and no carriage return
ends it. -/
structure IsDocLine (s : List Char) : Prop where
  oneLine : '\n' ∉ s
  first : s.head? ≠ some '/'
  last : s.getLast? ≠ some '\r'

namespace Declaration

def docChars (d : Declaration) : List Char :=
  d.docLines.flatMap fun line => "///".toList ++ (line.toList ++ ['\n'])

/-- The doc lines, the signature, and the body in braces, each on lines of their own. -/
def chars (d : Declaration) : List Char :=
  d.docChars ++ d.signature.chars ++ " \x7b".toList ++ d.body.toList ++ "\x7d\n".toList

/-- The signature and the body in braces. -/
def itemChars (d : Declaration) : List Char :=
  d.signature.chars ++ ' ' :: '\x7b' :: (d.body.toList ++ ['\x7d'])

theorem chars_eq (d : Declaration) : d.chars = d.docChars ++ (d.itemChars ++ ['\n']) := by
  have hopen : " \x7b".toList = [' ', '\x7b'] := rfl
  have hclose : "\x7d\n".toList = ['\x7d', '\n'] := rfl
  simp only [chars, itemChars, hopen, hclose, List.append_assoc, List.cons_append, List.nil_append]

structure WellFormed (d : Declaration) : Prop where
  docs : ∀ line ∈ d.docLines, IsDocLine line.toList
  signature : d.signature.WellFormed
  body : Bracket.curly.IsBalanced d.body.toList

/-- Where the doc lines, the visibility and the qualifiers close their braces, so does the whole. -/
theorem WellFormed.isBalanced_chars {d : Declaration} (hd : d.WellFormed)
    (hdocs : Bracket.curly.IsBalanced d.docChars)
    (hv : Bracket.curly.IsBalanced d.signature.visibility.toList)
    (hq : ∀ q ∈ d.signature.qualifiers, Bracket.curly.IsBalanced q.toList) :
    Bracket.curly.IsBalanced d.chars := by
  have hsignature := hd.signature.isBalanced_chars hv hq
  have hbody : Bracket.curly.IsBalanced ('\x7b' :: d.body.toList ++ ['\x7d']) :=
    hd.body.enclose
  have hblank : Bracket.curly.IsBalanced [' '] := by decide
  have hfeed : Bracket.curly.IsBalanced ['\n'] := by decide
  have hall := hdocs.append (hsignature.append (hblank.append (hbody.append hfeed)))
  rw [chars_eq, itemChars]
  simpa only [List.append_assoc, List.cons_append, List.nil_append] using hall

/-- The record of a declaration that is written after `before`. -/
def record (file : String) (owner : Option String) (before : List Char) (d : Declaration) :
    FunctionRecord :=
  ⟨d.signature, d.docLines, d.body, owner, file, 1 + lineFeeds (before ++ d.docChars)⟩

/-- The records of declarations that are written one after another after `before`. -/
def records (file : String) (owner : Option String) : (before : List Char) → List Declaration →
    List FunctionRecord
  | _, [] => []
  | before, d :: ds => d.record file owner before :: records file owner (before ++ d.chars) ds

end Declaration

/-- A free function, or a block of functions that belong to an owner. -/
inductive SourceItem where
  | function (declaration : Declaration)
  | block (owner : String) (methods : List Declaration)
  deriving DecidableEq, Repr

namespace SourceItem

/-- The first line of a block. -/
def blockHead (owner : String) : List Char :=
  "impl ".toList ++ owner.toList ++ " \x7b\n".toList

def chars : SourceItem → List Char
  | .function d => d.chars
  | .block owner methods => blockHead owner ++ methods.flatMap Declaration.chars ++ "\x7d\n".toList

/-- A block from its first word to the brace that closes it. -/
def blockChars (owner : String) (methods : List Declaration) : List Char :=
  Target.implWord ++ ' ' :: (owner.toList ++
    ' ' :: '\x7b' :: ('\n' :: methods.flatMap Declaration.chars ++ ['\x7d']))

theorem blockHead_eq (owner : String) : blockHead owner =
    Target.implWord ++ ' ' :: (owner.toList ++ [' ']) ++ ['\x7b', '\n'] := by
  have himpl : "impl ".toList = Target.implWord ++ [' '] := rfl
  have hopen : " \x7b\n".toList = [' ', '\x7b', '\n'] := rfl
  change "impl ".toList ++ owner.toList ++ " \x7b\n".toList = _
  rw [himpl, hopen]
  simp only [List.append_assoc, List.cons_append, List.nil_append]

theorem chars_block (owner : String) (methods : List Declaration) :
    (block owner methods).chars = blockChars owner methods ++ ['\n'] := by
  have hclose : "\x7d\n".toList = ['\x7d', '\n'] := rfl
  simp only [chars, blockHead_eq, blockChars, hclose, List.append_assoc, List.cons_append,
    List.nil_append]

/-- In a block the written methods also close all their braces, so that the block ends after them. -/
inductive WellFormed : SourceItem → Prop
  | function {d : Declaration} (declaration : d.WellFormed) : (SourceItem.function d).WellFormed
  | block {owner : String} {methods : List Declaration} (name : IsOwner owner.toList)
      (each : ∀ d ∈ methods, d.WellFormed)
      (balanced : Bracket.curly.IsBalanced (methods.flatMap Declaration.chars)) :
      (SourceItem.block owner methods).WellFormed

theorem WellFormed.of_methods {owner : String} {methods : List Declaration}
    (name : IsOwner owner.toList) (each : ∀ d ∈ methods, d.WellFormed)
    (hb : ∀ d ∈ methods, Bracket.curly.IsBalanced d.docChars ∧
      Bracket.curly.IsBalanced d.signature.visibility.toList ∧
      ∀ q ∈ d.signature.qualifiers, Bracket.curly.IsBalanced q.toList) :
    (SourceItem.block owner methods).WellFormed := by
  apply SourceItem.WellFormed.block name each
  apply Bracket.IsBalanced.flatMap
  intro d hm
  obtain ⟨hdocs, hv, hq⟩ := hb d hm
  exact (each d hm).isBalanced_chars hdocs hv hq

/-- The records of items that are written one after another after `before`. -/
def records (file : String) : (before : List Char) → List SourceItem → List FunctionRecord
  | _, [] => []
  | before, .function d :: items =>
    d.record file none before :: records file (before ++ (SourceItem.function d).chars) items
  | before, .block owner methods :: items =>
    Declaration.records file (some owner) (before ++ blockHead owner) methods ++
      records file (before ++ (SourceItem.block owner methods).chars) items

end SourceItem

namespace Outcome

variable {file : String} {owner : Option String} {line : Nat} {s : List Char}

/-- Written doc lines are read back as the lines that wait for an item. -/
theorem ofText_docLines {docLines : List String} (hd : ∀ l ∈ docLines, IsDocLine l.toList)
    (line : Nat) (docs : List String) (s : List Char) :
    ofText file owner line docs
        ((docLines.flatMap fun l => "///".toList ++ (l.toList ++ ['\n'])) ++ s) =
      ofText file owner (line + lineFeeds (docLines.flatMap fun l =>
        "///".toList ++ (l.toList ++ ['\n']))) (docs ++ docLines) s := by
  induction docLines generalizing line docs with
  | nil =>
    rw [List.flatMap_nil, List.nil_append, List.append_nil]
    rfl
  | cons l docLines ih =>
    have hl := hd l List.mem_cons_self
    have hn (rest : List Char) := Piece.next_docLine hl.oneLine hl.first rest
    rw [dropEndWhile_eq_self hl.last, String.ofList_toList] at hn
    rw [List.flatMap_cons, lineFeeds_append, lineFeeds_slashes hl.oneLine, ← Nat.add_assoc]
    simp only [List.append_assoc, List.cons_append, List.nil_append]
    rw [ofText_line hl.oneLine (hn _), afterPiece, ih fun l' h => hd l' (List.mem_cons_of_mem l h),
      List.append_assoc]
    rfl

theorem ofText_lineFeed {docs : List String} :
    ofText file owner line docs ('\n' :: s) = ofText file owner (line + 1) docs s := by
  have hblank : isBlankText ['\n'] = true := rfl
  exact ofText_blank_append hblank

/-- One step where the piece in front ends its line. -/
theorem ofText_item {docs : List String} {piece : Piece} {item : List Char}
    (hf : ∃ c t, item = c :: t ∧ isBlank c = false)
    (hn : Piece.next (item ++ '\n' :: s) = (piece, '\n' :: s)) :
    ofText file owner line docs (item ++ '\n' :: s) =
      afterPiece file owner line (line + lineFeeds item) docs ('\n' :: s) piece := by
  obtain ⟨c, t, rfl, hc⟩ := hf
  exact ofText_piece_append (List.cons_ne_nil c _) (trimStart_cons hc) hn

section Declarations

variable {before : List Char} {d : Declaration}

theorem next_declaration (hd : d.WellFormed) (rest : List Char) :
    Piece.next (d.itemChars ++ rest) = (.function ⟨d.signature, d.body⟩, rest) := by
  have hread := FunctionItem.read_chars hd.signature hd.body rest
  have hlead := hd.signature.read_lead (' ' :: '\x7b' :: (d.body.toList ++ '\x7d' :: rest))
  have hchars : d.itemChars ++ rest =
      d.signature.chars ++ ' ' :: '\x7b' :: (d.body.toList ++ '\x7d' :: rest) := by
    simp only [Declaration.itemChars, List.append_assoc, List.cons_append, List.nil_append]
  have hfn := keyword?_append FunctionItem.fnWord (continuesWord_blank
    (d.signature.declaredChars ++ ' ' :: '\x7b' :: (d.body.toList ++ '\x7d' :: rest)))
  rw [hchars, Piece.next_of_lead hlead ⟨'f', _, rfl, rfl⟩,
    Piece.ofItem_of_fn hlead (by rw [hfn]; rfl), Piece.ofFunction, hread]

/-- A written declaration is read as its record. -/
theorem ofText_declaration (hd : d.WellFormed) :
    ofText file owner (1 + lineFeeds before) [] (d.chars ++ s) =
      ofRecord (d.record file owner before) ++
        ofText file owner (1 + lineFeeds (before ++ d.chars)) [] s := by
  have hfirst : ∃ c t, d.itemChars = c :: t ∧ isBlank c = false := by
    obtain ⟨c, t, he, hc⟩ := hd.signature.first
    exact ⟨c, t ++ _, by rw [Declaration.itemChars, he, List.cons_append], hc⟩
  have hline : 1 + lineFeeds (before ++ d.docChars) =
      1 + lineFeeds before + lineFeeds d.docChars := by
    rw [lineFeeds_append, Nat.add_assoc]
  have hafter : 1 + lineFeeds (before ++ d.chars) =
      1 + lineFeeds before + lineFeeds d.docChars + lineFeeds d.itemChars + 1 := by
    rw [Declaration.chars_eq, lineFeeds_append, lineFeeds_append, lineFeeds_append]
    simp only [← Nat.add_assoc]
    rfl
  rw [hafter, Declaration.chars_eq, Declaration.record, hline]
  simp only [List.append_assoc, List.cons_append, List.nil_append]
  rw [Declaration.docChars, ofText_docLines hd.docs, List.nil_append,
    ofText_item hfirst (next_declaration hd _), afterPiece, ofText_lineFeed]

theorem ofText_declarations {ds : List Declaration} (hd : ∀ d ∈ ds, d.WellFormed) :
    ofText file owner (1 + lineFeeds before) [] (ds.flatMap Declaration.chars ++ s) =
      ⟨Declaration.records file owner before ds, []⟩ ++
        ofText file owner (1 + lineFeeds (before ++ ds.flatMap Declaration.chars)) [] s := by
  induction ds generalizing before with
  | nil =>
    rw [List.flatMap_nil, List.append_nil, List.nil_append]
    rfl
  | cons d ds ih =>
    have hrest := fun e h => hd e (List.mem_cons_of_mem d h)
    rw [List.flatMap_cons, List.append_assoc, ofText_declaration (hd d List.mem_cons_self),
      ih hrest, ← append_assoc, ← List.append_assoc before]
    rfl

/-- The declarations are all that the text holds. -/
theorem ofText_methods {ds : List Declaration} (hd : ∀ d ∈ ds, d.WellFormed) :
    ofText file owner (1 + lineFeeds before) [] (ds.flatMap Declaration.chars) =
      ⟨Declaration.records file owner before ds, []⟩ := by
  rw [← List.append_nil (ds.flatMap _), ofText_declarations hd, ofText_of_blank rfl, append_eq,
    empty, List.append_nil, List.append_nil]

end Declarations

section Items

variable {before : List Char}

/-- A written block is read as the records of its methods. -/
theorem ofText_block {blockOwner : String} (ho : IsOwner blockOwner.toList)
    {methods : List Declaration} (hm : ∀ d ∈ methods, d.WellFormed)
    (hb : Bracket.curly.IsBalanced (methods.flatMap Declaration.chars)) :
    ofText file owner (1 + lineFeeds before) [] ((SourceItem.block blockOwner methods).chars ++ s) =
      ⟨Declaration.records file (some blockOwner) (before ++ SourceItem.blockHead blockOwner) methods,
        []⟩ ++
        ofText file owner (1 + lineFeeds (before ++ (SourceItem.block blockOwner methods).chars)) []
          s := by
  have hfirst : ∃ c t, SourceItem.blockChars blockOwner methods = c :: t ∧ isBlank c = false :=
    ⟨'i', _, rfl, by decide⟩
  have hn : Piece.next (SourceItem.blockChars blockOwner methods ++ '\n' :: s) =
      (.ownerBlock blockOwner
        (lineFeeds (Target.implWord ++ ' ' :: (blockOwner.toList ++ [' '])))
        ('\n' :: methods.flatMap Declaration.chars), '\n' :: s) := by
    have hinner := hb.cons (c := '\n') (by decide) (by decide)
    rw [← Piece.next_block ho hinner, SourceItem.blockChars]
    simp only [List.append_assoc, List.cons_append, List.nil_append]
  have hinside : 1 + lineFeeds (before ++ SourceItem.blockHead blockOwner) = 1 + lineFeeds before +
      lineFeeds (Target.implWord ++ ' ' :: (blockOwner.toList ++ [' '])) + 1 := by
    rw [SourceItem.blockHead_eq, lineFeeds_append, lineFeeds_append _ ['\x7b', '\n']]
    simp only [← Nat.add_assoc]
    rfl
  have hafter : 1 + lineFeeds (before ++ (SourceItem.block blockOwner methods).chars) =
      1 + lineFeeds before + lineFeeds (SourceItem.blockChars blockOwner methods) + 1 := by
    rw [SourceItem.chars_block, lineFeeds_append, lineFeeds_append _ ['\n']]
    simp only [← Nat.add_assoc]
    rfl
  rw [hafter, SourceItem.chars_block, List.append_assoc, List.singleton_append,
    ofText_item hfirst hn, afterPiece, ofText_lineFeed, ofText_lineFeed, ← hinside,
    ofText_methods hm]

theorem ofText_items {items : List SourceItem} (hi : ∀ i ∈ items, i.WellFormed) :
    ofText file none (1 + lineFeeds before) [] (items.flatMap SourceItem.chars) =
      ⟨SourceItem.records file before items, []⟩ := by
  induction items generalizing before with
  | nil => exact ofText_of_blank rfl
  | cons item items ih =>
    have hrest := fun i h => hi i (List.mem_cons_of_mem item h)
    rw [List.flatMap_cons]
    cases hi item List.mem_cons_self with
    | function hd =>
      rw [SourceItem.chars, ofText_declaration hd, ih hrest]
      rfl
    | block ho hm hb =>
      rw [ofText_block ho hm hb, ih hrest]
      rfl

end Items

end Outcome

/-- Reading undoes writing: the text of any well-formed items holds their records, in order and each at
its line, and nothing that could not be read. -/
theorem parseSource_chars (file : String) {items : List SourceItem}
    (hi : ∀ i ∈ items, i.WellFormed) :
    parseSource file (items.flatMap SourceItem.chars) = ⟨SourceItem.records file [] items, []⟩ := by
  have h : Outcome.ofText file none (1 + lineFeeds []) [] _ = _ := Outcome.ofText_items hi
  exact h

theorem parseSource_store :
    parseSource "a.rs" ("/// Opens it.\npub(crate) const fn open<'a, T>(path: &'a T) -> ".toList ++
        "Option<T> \x7b read(path) \x7d\nimpl Store \x7b\n/// Adds \x7bkey\x7d.\n".toList ++
        "fn put(&mut self, key: T) \x7b match key \x7b\x7d \x7d\n\x7d\n".toList) =
      ⟨[⟨⟨"open", "pub(crate)", ["const"], ["'a", "T"],
            [.typed "path" (.reference false (some "'a") (.named "T" []))],
            some (.named "Option" [.type (.named "T" [])])⟩,
          [" Opens it."], " read(path) ", none, "a.rs", 2⟩,
        ⟨⟨"put", "private", [], [], [.receiver ⟨true, none, true⟩, .typed "key" (.named "T" [])],
            none⟩,
          [" Adds \x7bkey\x7d."], " match key \x7b\x7d ", some "Store", "a.rs", 5⟩], []⟩ := by
  have hlife : IsLifetime "'a".toList := ⟨['a'], rfl, rfl⟩
  have hpath (word : String) (hw : isIdentifier word.toList = true)
      (hr : word.toList ∉ reservedWords) : IsPath word.toList :=
    ⟨word.toList, [], hw, hr, by simp, by simp⟩
  have htype : (TypeExpr.named "T" []).WellFormed := .named (hpath "T" rfl (by decide)) (by simp)
  have hresult : (TypeExpr.named "Option" [.type (.named "T" [])]).WellFormed :=
    .named (hpath "Option" rfl (by decide)) (List.forall_mem_singleton.2 (.type htype))
  have hopen : (Declaration.mk [" Opens it."] ⟨"open", "pub(crate)", ["const"], ["'a", "T"],
      [.typed "path" (.reference false (some "'a") (.named "T" []))],
      some (.named "Option" [.type (.named "T" [])])⟩ " read(path) ").WellFormed := by
    have hscope : Lead.IsVisibility "pub(crate)" :=
      @Lead.IsVisibility.within "crate".toList (by decide) (by decide)
    have href : (TypeExpr.reference false (some "'a") (.named "T" [])).WellFormed :=
      .reference (fun l hl => Option.some.inj hl ▸ hlife) htype
    refine ⟨List.forall_mem_singleton.2 ⟨by decide, by decide, by decide⟩, ?_, by decide⟩
    refine ⟨by decide, hscope, List.forall_mem_singleton.2 (.plain (by decide)), ?_, ?_, ?_⟩
    · exact List.forall_mem_cons.2 ⟨.inl hlife, List.forall_mem_singleton.2 (.inr (by decide))⟩
    · exact ⟨List.forall_mem_singleton.2 (.typed (by decide) (by decide) href), by simp,
        fun name type h => by obtain ⟨rfl, -⟩ := Parameter.typed.inj (Option.some.inj h); decide⟩
    · exact fun t ht => Option.some.inj ht ▸ ⟨hresult, by decide⟩
  have hput : (Declaration.mk [" Adds \x7bkey\x7d."] ⟨"put", "private", [], [],
      [.receiver ⟨true, none, true⟩, .typed "key" (.named "T" [])], none⟩
      " match key \x7b\x7d ").WellFormed := by
    refine ⟨List.forall_mem_singleton.2 ⟨by decide, by decide, by decide⟩, ?_, by decide⟩
    refine ⟨by decide, .hidden, by simp, by simp, ?_, by simp⟩
    refine ⟨List.forall_mem_cons.2 ⟨.receiver (by simp), ?_⟩, by simp [Parameter.isReceiver],
      by simp⟩
    exact List.forall_mem_singleton.2 (.typed (by decide) (by decide) htype)
  have hstore : (SourceItem.block "Store" [_]).WellFormed :=
    .of_methods ⟨by decide, by decide⟩ (List.forall_mem_singleton.2 hput)
      (List.forall_mem_singleton.2 ⟨by decide, by decide, by simp⟩)
  have h := parseSource_chars "a.rs"
    (List.forall_mem_cons.2 ⟨.function hopen, List.forall_mem_singleton.2 hstore⟩)
  refine Eq.trans (congrArg (parseSource "a.rs") ?_) h
  decide +kernel

end ApiSurface
