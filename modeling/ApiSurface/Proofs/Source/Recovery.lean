import ApiSurface.Proofs.Source.Rejection
import ApiSurface.Proofs.Source.RoundTrip

namespace ApiSurface

open Text TopLevel
open ApiSurface.Bracket (IsNested nest outsideFrom enclosed)

namespace TopLevel

/-- The depth of a header after all of a text, wherever the header ends. -/
def headerDepth : (depth : Nat) → (prev : Char) → List Char → Nat
  | depth, _, [] => depth
  | depth, prev, c :: rest => headerDepth (headerStep depth prev c) c rest

variable {depth : Nat} {prev : Char} {s t : List Char}

/-- Only an arrow joins the first character to the one before it. -/
theorem headerDepth_of_ne_hyphen {prev' : Char} (h : prev ≠ '-') (h' : prev' ≠ '-') :
    headerDepth depth prev s = headerDepth depth prev' s := by
  cases s with
  | nil => rfl
  | cons c s => rw [headerDepth, headerDepth, headerStep_of_ne_hyphen h h']

/-- A header that does not end in a text goes on after it, at the depth that the text leaves. -/
theorem headerFrom_append_of_runsOn (h : (headerFrom depth prev s).2 = [])
    (ht : continuesWord t = false) :
    headerFrom depth prev (s ++ t) =
      (headerFrom (headerDepth depth prev s) (lastAfter prev s) t).map (s ++ ·) id := by
  induction s generalizing depth prev with
  | nil => rfl
  | cons c s ih =>
    rw [headerFrom] at h
    split at h
    · cases h
    · rename_i hend
      rw [List.cons_append, headerFrom, endsHeader_append ht, if_neg hend, ih h]
      rfl

/-- A header with a bracket open does not end at a brace. -/
theorem headerFrom_brace (hd : depth ≠ 0) (s : List Char) :
    headerFrom depth prev ('\x7b' :: s) = (headerFrom depth '\x7b' s).map ('\x7b' :: ·) id := by
  have hstep : headerStep depth prev '\x7b' = depth := rfl
  rw [headerFrom, if_neg fun h => hd h.1, hstep]

/-- Inside an open bracket a header runs on through nested text. -/
theorem headerFrom_of_isNested (hd : depth ≠ 0) (hs : IsNested s) :
    (headerFrom depth prev s).2 = [] := by
  have hcount : (List.replicate depth Bracket.round).countP (· ≠ .curly) = depth := by
    simp [List.countP_replicate]
  have hlast : (List.replicate depth Bracket.round).getLast? ≠ some .curly := by
    simp [List.getLast?_replicate, hd]
  have hopen : List.replicate depth Bracket.round ≠ [] := by simpa using hd
  have hnone : outsideFrom (List.replicate depth Bracket.round) prev s = [] :=
    Bracket.outsideFrom_base (hs.nest [] prev) hopen
  have h := headerFrom_of_nest (hs.nest (List.replicate depth .round) prev) hlast []
    (by rw [hnone]; exact List.forall_mem_nil _)
  rw [hcount, List.append_nil] at h
  rw [h]
  rfl

/-- Text in which a header ends at no mark, only at the word `where`. -/
def IsMarkless (s : List Char) : Prop := ∀ c ∈ s, c ≠ '\x7b' ∧ c ≠ ';'

instance (s : List Char) : Decidable (IsMarkless s) :=
  inferInstanceAs (Decidable (∀ c ∈ s, _ ∧ _))

/-- A header runs on through text without marks, or it ends there in front of the word `where`; then the
text after that word leaves the same depth as all of it. -/
theorem headerFrom_of_isMarkless (hs : IsMarkless s) (ht : continuesWord t = false) :
    (headerFrom depth prev s).2 = [] ∨
      ∃ clause, IsMarkless clause ∧
        (headerFrom depth prev (s ++ t)).2 = whereWord ++ (clause ++ t) ∧
        continuesWord (clause ++ t) = false ∧
        headerDepth 0 start clause = headerDepth depth prev s := by
  induction s generalizing depth prev with
  | nil => exact .inl rfl
  | cons c s ih =>
    obtain ⟨hc, hrest⟩ := List.forall_mem_cons.1 hs
    by_cases hend : depth = 0 ∧ endsHeader prev c s = true
    · right
      obtain ⟨rfl, hend'⟩ := hend
      have hword : (keyword? whereWord (c :: s)).isSome := by
        simp only [endsHeader, Bool.or_eq_true, Bool.and_eq_true, beq_iff_eq] at hend'
        obtain (hbrace | hsemicolon) | hword := hend'
        · exact absurd hbrace hc.1
        · exact absurd hsemicolon hc.2
        · exact hword.2
      obtain ⟨clause, hk⟩ := Option.isSome_iff_exists.1 hword
      obtain ⟨hsplit, hclause⟩ := keyword?_eq_some_iff.1 hk
      refine ⟨clause, ?_, ?_, continuesWord_append hclause ht, ?_⟩
      · intro d hd
        exact hs d (hsplit ▸ List.mem_append_right _ hd)
      · rw [List.cons_append, headerFrom, endsHeader_append ht, if_pos ⟨rfl, hend'⟩, ← List.cons_append,
          hsplit, List.append_assoc]
      · -- The letters of the word change no depth, and what comes after them is not behind a hyphen.
        have hletters : headerDepth 0 prev (whereWord ++ clause) = headerDepth 0 'e' clause := rfl
        rw [hsplit, hletters]
        exact headerDepth_of_ne_hyphen (by decide) (by decide)
    · obtain h | ⟨clause, hm, h, hclause, hdepth⟩ :
          (headerFrom (headerStep depth prev c) c s).2 = [] ∨ _ := ih hrest
      · left
        rw [headerFrom, if_neg hend]
        exact h
      · refine .inr ⟨clause, hm, ?_, hclause, hdepth⟩
        rw [List.cons_append, headerFrom, endsHeader_append ht, if_neg hend]
        exact h

/-- Where a header ends whose text without marks stands in front of a brace: at the brace if it leaves
no bracket open, nowhere if one is left open that is never closed, or at a word `where`. -/
theorem header_of_isMarkless (hs : IsMarkless s)
    (hopen : headerDepth 0 start s ≠ 0 → (headerFrom (headerDepth 0 start s) '\x7b' t).2 = []) :
    (header (s ++ '\x7b' :: t)).2 = '\x7b' :: t ∨ (header (s ++ '\x7b' :: t)).2 = [] ∨
      ∃ clause, IsMarkless clause ∧ headerDepth 0 start clause = headerDepth 0 start s ∧
        (header (s ++ '\x7b' :: t)).2 = whereWord ++ (clause ++ '\x7b' :: t) ∧
        continuesWord (clause ++ '\x7b' :: t) = false := by
  have hbrace : continuesWord ('\x7b' :: t) = false := rfl
  obtain hruns | ⟨clause, hm, h, hclause, hdepth⟩ := headerFrom_of_isMarkless hs hbrace
  · rw [header, headerFrom_append_of_runsOn hruns hbrace]
    by_cases hd : headerDepth 0 start s = 0
    · left
      rw [hd]
      rfl
    · right; left
      rw [headerFrom_brace hd]
      exact hopen hd
  · exact .inr (.inr ⟨clause, hm, hdepth, h, hclause⟩)

end TopLevel

theorem IsHeader.headerFrom_brace {s : List Char} (h : IsHeader s) (prev : Char) (t : List Char) :
    headerFrom 0 prev (s ++ '\x7b' :: t) = (s, '\x7b' :: t) := by
  have hs : ∀ place ∈ outsideFrom [] prev s,
      endsHeader place.1 place.2.1 (place.2.2 ++ '\x7b' :: t) = false := by
    intro place hp
    rw [endsHeader_append rfl]
    exact h.runsOnFrom prev place hp
  have hend : endsHeader (lastAfter prev s) '\x7b' t = true := rfl
  have := headerFrom_of_nest (h.nested.nest [] prev) (by simp) ('\x7b' :: t) hs
  rw [List.countP_nil, headerFrom, if_pos ⟨rfl, hend⟩] at this
  rw [this]
  simp

namespace Piece

variable {head body post : List Char}

/-- What is passed over of an item whose header has no mark: up to the end of its block, or its first
line. -/
theorem afterItem_of_isMarkless (hh : IsMarkless head) (hb : Bracket.curly.IsBalanced body)
    (hopen : headerDepth 0 start head ≠ 0 →
      (headerFrom (headerDepth 0 start head) '\x7b' (body ++ '\x7d' :: post)).2 = []) :
    afterItem (head ++ '\x7b' :: (body ++ '\x7d' :: post)) = post ∨
      afterItem (head ++ '\x7b' :: (body ++ '\x7d' :: post)) =
        afterLine (head ++ '\x7b' :: (body ++ '\x7d' :: post)) := by
  have hbrace : keyword? whereWord ('\x7b' :: (body ++ '\x7d' :: post)) = none :=
    keyword?_eq_none_of_head (by decide)
  have hblock : enclosed ('\x7b' :: (body ++ '\x7d' :: post)) = .ok (body, post) :=
    hb.enclosed (by decide) post
  unfold afterItem
  obtain h | h | ⟨clause, hm, hdepth, h, hclause⟩ := header_of_isMarkless hh hopen
  · left
    simp only [h, hbrace, Option.elim_none, hblock]
  · right
    simp only [h]
    rfl
  · have hword := keyword?_append whereWord hclause
    rw [← hdepth] at hopen
    simp only [h, hword, Option.elim_some]
    -- A second word `where` ends the clause of the first, and then there is no block.
    obtain h | h | ⟨clause', -, -, h, -⟩ := header_of_isMarkless hm hopen
    · left
      simp only [h, hblock]
    · right
      simp only [h]
    · right
      simp only [h]
      rfl

end Piece

/-- Nothing stands before the word `fn`. -/
theorem Lead.read_of_fnWord {s : List Char} (h : (keyword? FunctionItem.fnWord s).isSome) :
    Lead.read s = .ok (⟨Signature.privateWord, []⟩, s) := by
  obtain ⟨rest, hk⟩ := Option.isSome_iff_exists.1 h
  obtain ⟨rfl, -⟩ := keyword?_eq_some_iff.1 hk
  have hword : Lead.BeginsWord (FunctionItem.fnWord ++ rest) := ⟨'f', _, rfl, by decide⟩
  exact Lead.read_chars .hidden (List.forall_mem_nil _) hword rfl

/-- A function without parameters and body, on a line of its own. -/
def emptyFunction (name : List Char) : List Char :=
  "fn ".toList ++ name ++ "() \x7b\x7d\n".toList

/-- What `emptyFunction` declares. -/
def emptyDeclaration (name : List Char) : Declaration :=
  ⟨[], ⟨String.ofList name, Signature.privateWord, [], [], [], none⟩, ""⟩

theorem chars_emptyDeclaration (name : List Char) :
    (emptyDeclaration name).chars = emptyFunction name := by
  have hvisibility : Signature.visibilityChars Signature.privateWord = [] := rfl
  have hsignature : (emptyDeclaration name).signature.chars = "fn ".toList ++ name ++ "()".toList := by
    have hends : "()".toList = ['(', ')'] := rfl
    simp [emptyDeclaration, Signature.chars, hvisibility, Signature.genericChars, hends]
  have hround : "() \x7b\x7d\n".toList = "()".toList ++ (" \x7b".toList ++ "\x7d\n".toList) := rfl
  rw [emptyFunction, hround, Declaration.chars, hsignature]
  simp [emptyDeclaration, Declaration.docChars]

theorem emptyDeclaration_wellFormed {name : List Char} (hname : isIdentifier name = true) :
    (emptyDeclaration name).WellFormed := by
  have hbody : Bracket.curly.IsBalanced "".toList := by decide
  refine ⟨List.forall_mem_nil _, ⟨?_, .hidden, List.forall_mem_nil _, List.forall_mem_nil _, ?_, ?_⟩,
    hbody⟩
  · rwa [← String.toList_ofList (l := name)] at hname
  · exact ⟨List.forall_mem_nil _, by simp [emptyDeclaration], by simp [emptyDeclaration]⟩
  · simp [emptyDeclaration]

theorem parseSource_emptyFunction (file : String) {name : List Char}
    (hname : isIdentifier name = true) :
    parseSource file (emptyFunction name) = ⟨[(emptyDeclaration name).record file none []], []⟩ := by
  have h := parseSource_chars file
    (List.forall_mem_singleton.2 (.function (emptyDeclaration_wellFormed hname)))
  rw [List.flatMap_singleton, SourceItem.chars, chars_emptyDeclaration] at h
  exact h

theorem isNested_emptyFunction {name : List Char} (hname : isIdentifier name = true) :
    IsNested (emptyFunction name) := by
  have hword := isNested_of_isIdentifier hname
  have hfn : IsNested "fn ".toList := by decide
  have hrest : IsNested "() \x7b\x7d\n".toList := by decide
  exact (hfn.append hword).append hrest

/-- The text between two blocks is a header up to the brace that opens the second one. -/
theorem isHeader_emptyFunction {name : List Char} (hname : isIdentifier name = true)
    (hwhere : name ≠ whereWord) : IsHeader ("\nfn".toList ++ (' ' :: (name ++ "() ".toList))) := by
  have hfn : IsHeader "\nfn".toList := ⟨by decide, by decide⟩
  have hround : IsHeader "() ".toList := ⟨by decide, by decide⟩
  have hword : IsHeader (name ++ "() ".toList) :=
    (IsHeader.of_isIdentifier hname hwhere).append hround rfl
  exact hfn.append hword.blank_cons rfl

/-- A function of which the parser can make nothing, on one line: a header without marks, and a body in
braces, followed by the text `post` on the lines below. -/
structure IsBrokenFunction (head body post : List Char) (fault : Fault) : Prop where
  word : (keyword? FunctionItem.fnWord head).isSome
  markless : IsMarkless head
  oneLine : '\n' ∉ head ++ body
  balanced : Bracket.curly.IsBalanced body
  rejected : FunctionItem.read (head ++ '\x7b' :: (body ++ '\x7d' :: '\n' :: post)) = .error fault

namespace IsBrokenFunction

open Outcome

variable {head body post : List Char} {fault : Fault}

/-- One diagnostic, and then what the text holds that is left after the function. -/
theorem parseSource_eq (h : IsBrokenFunction head body post fault) (file : String) {rest : List Char}
    (hrest : Piece.afterItem (head ++ '\x7b' :: (body ++ '\x7d' :: '\n' :: post)) = rest) :
    parseSource file (head ++ '\x7b' :: (body ++ '\x7d' :: '\n' :: post)) =
      ofDiagnostic (.ofFault file 1 fault none) ++ ofText file none
        (lineAt 1 (head ++ '\x7b' :: (body ++ '\x7d' :: '\n' :: post)) rest) [] rest := by
  have hword : (keyword? FunctionItem.fnWord
      (head ++ '\x7b' :: (body ++ '\x7d' :: '\n' :: post))).isSome := by
    rw [keyword?_append_right (by decide) rfl, Option.isSome_map]
    exact h.word
  have hn := Piece.next_of_isRejected (Lead.read_of_fnWord hword) (.inl ⟨hword, h.rejected⟩)
  have htrim : trimStart (head ++ '\x7b' :: (body ++ '\x7d' :: '\n' :: post)) =
      head ++ '\x7b' :: (body ++ '\x7d' :: '\n' :: post) := by
    obtain ⟨after, hk⟩ := Option.isSome_iff_exists.1 h.word
    rw [(keyword?_eq_some_iff.1 hk).1]
    exact trimStart_cons rfl
  have hne : trimStart (head ++ '\x7b' :: (body ++ '\x7d' :: '\n' :: post)) ≠ [] := by
    rw [htrim]
    simp
  rw [hrest] at hn
  rw [parseSource, ofText_of_next hne (by rw [htrim, hn]), htrim, lineAt_self]
  rfl

/-- If the body does not close what the header leaves open, or the header leaves nothing open, then only
the one line is lost. -/
theorem parseSource_of_open (h : IsBrokenFunction head body post fault) (file : String)
    (hp : IsNested post)
    (hopen : headerDepth 0 start head ≠ 0 →
      (headerFrom (headerDepth 0 start head) '\x7b' body).2 = [] ∧
        headerDepth (headerDepth 0 start head) '\x7b' body ≠ 0) :
    parseSource file (head ++ '\x7b' :: (body ++ '\x7d' :: '\n' :: post)) =
      ofDiagnostic (.ofFault file 1 fault none) ++ (parseSource file post).movedDown 1 := by
  have hruns (hd : headerDepth 0 start head ≠ 0) : (headerFrom (headerDepth 0 start head) '\x7b'
      (body ++ '\x7d' :: '\n' :: post)).2 = [] := by
    obtain ⟨hbody, hdepth⟩ := hopen hd
    have hfeed : IsNested ('\n' :: post) := by
      have hnested : IsNested ['\n'] := by decide
      exact hnested.append hp
    rw [headerFrom_append_of_runsOn hbody rfl, headerFrom, if_neg fun hend => hdepth hend.1]
    exact headerFrom_of_isNested hdepth hfeed
  have hline : '\n' ∉ head ++ '\x7b' :: (body ++ ['\x7d']) := by
    have := h.oneLine
    simp only [List.mem_append, List.mem_cons, List.not_mem_nil, or_false, not_or] at this ⊢
    exact ⟨this.1, by decide, this.2, by decide⟩
  have htext : head ++ '\x7b' :: (body ++ '\x7d' :: '\n' :: post) =
      (head ++ '\x7b' :: (body ++ ['\x7d'])) ++ '\n' :: post := by
    simp only [List.append_assoc, List.cons_append, List.nil_append]
  have hfeeds : lineFeeds (head ++ '\x7b' :: (body ++ ['\x7d'])) = 0 :=
    List.count_eq_zero_of_not_mem hline
  have hpost : ofText file none 2 [] post = (parseSource file post).movedDown 1 :=
    ofText_add_line 1
  rw [← hpost]
  obtain hrest | hrest := Piece.afterItem_of_isMarkless h.markless h.balanced hruns
  · rw [h.parseSource_eq file hrest, htext, lineAt_append, hfeeds, ofText_lineFeed]
  · have hafter : afterLine (head ++ '\x7b' :: (body ++ '\x7d' :: '\n' :: post)) = post := by
      rw [htext, afterLine_append hline]
    rw [hafter] at hrest
    have hcons : (head ++ '\x7b' :: (body ++ ['\x7d'])) ++ '\n' :: post =
        (head ++ '\x7b' :: (body ++ ['\x7d']) ++ ['\n']) ++ post := by
      simp only [List.append_assoc, List.cons_append, List.nil_append]
    rw [h.parseSource_eq file hrest, htext, hcons, lineAt_append, lineFeeds_append, hfeeds]
    rfl

/-- If the body closes what the header leaves open, the block that is passed over is the one of the
function below, and that function is lost. -/
theorem parseSource_of_closed {name : List Char}
    (h : IsBrokenFunction head body (emptyFunction name) fault)
    (file : String) (hname : isIdentifier name = true) (hwhere : name ≠ whereWord)
    (hhead : (header head).2 = []) (hopen : headerDepth 0 start head ≠ 0)
    (hbody : (headerFrom (headerDepth 0 start head) '\x7b' body).2 = [])
    (hclosed : headerDepth (headerDepth 0 start head) '\x7b' body = 0) :
    parseSource file (head ++ '\x7b' :: (body ++ '\x7d' :: '\n' :: emptyFunction name)) =
      ofDiagnostic (.ofFault file 1 fault none) := by
  have hbelow := isHeader_emptyFunction hname hwhere
  have htext : '\n' :: emptyFunction name =
      "\nfn".toList ++ (' ' :: (name ++ "() ".toList)) ++ '\x7b' :: '\x7d' :: ['\n'] := by
    have hfn : "fn ".toList = ['f', 'n', ' '] := rfl
    have hfeed : "\nfn".toList = ['\n', 'f', 'n'] := rfl
    have hround : "() \x7b\x7d\n".toList = "() ".toList ++ ['\x7b', '\x7d', '\n'] := rfl
    rw [emptyFunction, hfn, hfeed, hround]
    simp only [List.append_assoc, List.cons_append, List.nil_append]
  have hheader : (header (head ++ '\x7b' :: (body ++ '\x7d' :: '\n' :: emptyFunction name))).2 =
      '\x7b' :: '\x7d' :: ['\n'] := by
    have hend (t : List Char) : endsHeader (lastAfter '\x7b' body) '\x7d' t = false := by
      have hk : keyword? whereWord ('\x7d' :: t) = none := keyword?_eq_none_of_head (by decide)
      rw [endsHeader, hk]
      simp
    have hstep : headerStep 0 (lastAfter '\x7b' body) '\x7d' = 0 := rfl
    rw [header, headerFrom_append_of_runsOn hhead rfl, headerFrom_brace hopen,
      headerFrom_append_of_runsOn hbody rfl, hclosed, htext, headerFrom, hend, if_neg (by simp), hstep,
      hbelow.headerFrom_brace]
    rfl
  have hafter : Piece.afterItem (head ++ '\x7b' :: (body ++ '\x7d' :: '\n' :: emptyFunction name)) =
      ['\n'] := by
    unfold Piece.afterItem
    simp only [hheader]
    rfl
  rw [h.parseSource_eq file hafter, ofText_of_blank rfl, append_empty]

/-- The function on the line below a broken one is found, provided that the broken one's body does not
close what its header leaves open. -/
theorem neighbour_mem_records {name : List Char}
    (h : IsBrokenFunction head body (emptyFunction name) fault) (file : String)
    (hname : isIdentifier name = true)
    (hopen : headerDepth 0 start head ≠ 0 →
      (headerFrom (headerDepth 0 start head) '\x7b' body).2 = [] ∧
        headerDepth (headerDepth 0 start head) '\x7b' body ≠ 0) :
    ⟨⟨String.ofList name, "private", [], [], [], none⟩, [], "", none, file, 2⟩ ∈
      (parseSource file (head ++ '\x7b' :: (body ++ '\x7d' :: '\n' :: emptyFunction name))).records := by
  rw [h.parseSource_of_open file (isNested_emptyFunction hname) hopen, parseSource_emptyFunction file hname]
  exact List.mem_singleton.2 rfl

theorem neighbour_mem_records_open :
    ⟨⟨"g", "private", [], [], [], none⟩, [], "", none, "a.rs", 2⟩ ∈
      (parseSource "a.rs" ("fn b1(x: u8 ".toList ++
        '\x7b' :: (" a < b ".toList ++ '\x7d' :: '\n' :: emptyFunction ['g']))).records := by
  have hread : FunctionItem.read ("fn b1(x: u8 ".toList ++
      '\x7b' :: (" a < b ".toList ++ '\x7d' :: '\n' :: emptyFunction ['g'])) =
      .error (.unmatchedBracket '(' 1) := by
    rw [FunctionItem.read, Lead.read_of_fnWord rfl]
    rfl
  have hbroken : IsBrokenFunction "fn b1(x: u8 ".toList " a < b ".toList
      (emptyFunction ['g']) (.unmatchedBracket '(' 1) :=
    ⟨rfl, by decide, by decide, by decide, hread⟩
  exact neighbour_mem_records hbroken "a.rs" (by decide) (by decide)

/-- A body that closes what the header leaves open takes the function below with it: the `>` of a
comparison closes the parenthesis. -/
theorem neighbour_not_mem_records :
    IsBrokenFunction "fn b1(x: u8 ".toList " a > b ".toList (emptyFunction ['g'])
        (.unmatchedBracket '(' 1) ∧
      headerDepth 0 start "fn b1(x: u8 ".toList ≠ 0 ∧ isIdentifier ['g'] = true ∧
      (parseSource "a.rs" ("fn b1(x: u8 ".toList ++
        '\x7b' :: (" a > b ".toList ++ '\x7d' :: '\n' :: emptyFunction ['g']))).records = [] := by
  have hread : FunctionItem.read ("fn b1(x: u8 ".toList ++
      '\x7b' :: (" a > b ".toList ++ '\x7d' :: '\n' :: emptyFunction ['g'])) =
      .error (.unmatchedBracket '(' 1) := by
    rw [FunctionItem.read, Lead.read_of_fnWord rfl]
    rfl
  have hbroken : IsBrokenFunction "fn b1(x: u8 ".toList " a > b ".toList
      (emptyFunction ['g']) (.unmatchedBracket '(' 1) :=
    ⟨rfl, by decide, by decide, by decide, hread⟩
  refine ⟨hbroken, by decide, rfl, ?_⟩
  rw [hbroken.parseSource_of_closed "a.rs" rfl (by decide) (by decide) (by decide) (by decide)
    (by decide)]
  rfl

end IsBrokenFunction

end ApiSurface
