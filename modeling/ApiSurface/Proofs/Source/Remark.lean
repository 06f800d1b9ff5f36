import ApiSurface.Proofs.Source.Rejection

namespace ApiSurface

open Text TopLevel

/-- A remark that is passed over whole, with the line feed that ends a line comment. -/
inductive IsRemark : List Char → Prop
  /-- Three slashes begin a doc line, but four do not. -/
  | lineComment {text : List Char} (oneLine : '\n' ∉ text)
      (plain : text.head? ≠ some '/' ∨ "//".toList <+: text) :
      IsRemark ("//".toList ++ (text ++ ['\n']))
  | bracketed {mark inner : List Char} (sign : mark = "#".toList ∨ mark = "#!".toList)
      (balanced : Bracket.square.IsBalanced inner) : IsRemark (mark ++ '[' :: (inner ++ [']']))
  | useItem {path : List Char} (one : ';' ∉ path) : IsRemark ("use ".toList ++ (path ++ [';']))

/-- White space and remarks, any number of them in any order. -/
inductive IsSkippable : List Char → Prop
  | nil : IsSkippable []
  | blank {s rest : List Char} (h : isBlankText s = true) (more : IsSkippable rest) :
      IsSkippable (s ++ rest)
  | remark {s rest : List Char} (h : IsRemark s) (more : IsSkippable rest) : IsSkippable (s ++ rest)

/-- The mark that closes a block comment is found behind a text that does not hold it. -/
theorem Text.afterMark_close {c : List Char} (hc : ¬"*/".toList <:+: c) (rest : List Char) :
    afterMark "*/".toList (c ++ ("*/".toList ++ rest)) = rest := by
  induction c with
  | nil => rfl
  | cons d c ih =>
    have hmore : ¬"*/".toList <:+: c := fun h => hc (h.trans (List.suffix_cons d c).isInfix)
    -- A star before the mark closes nothing: behind it stands the star of the mark.
    have hstrip : strip? "*/".toList (d :: (c ++ ("*/".toList ++ rest))) = none := by
      by_cases hd : d = '*'
      · have hslash : c.head? ≠ some '/' := by
          intro he
          obtain ⟨c', rfl⟩ := List.head?_eq_some_iff.1 he
          exact hc ⟨[], c', by rw [hd]; rfl⟩
        rw [hd]
        exact strip?_eq_none_of_head? (head?_append_cons_ne hslash (by decide) _) []
      · have hstar : (d :: (c ++ ("*/".toList ++ rest))).head? ≠ some '*' :=
          fun he => hd (Option.some.inj he)
        exact strip?_eq_none_of_head? hstar ['/']
    rw [List.cons_append, afterMark, hstrip]
    exact ih hmore

namespace Piece

/-- A comment of two slashes ends with its line. -/
theorem next_lineComment {text : List Char} (ho : '\n' ∉ text)
    (hp : text.head? ≠ some '/' ∨ "//".toList <+: text) (rest : List Char) :
    next ("//".toList ++ (text ++ '\n' :: rest)) = (.remark, rest) := by
  rcases hp with hp | ⟨more, rfl⟩
  · have hdoc : strip? "///".toList ("//".toList ++ (text ++ '\n' :: rest)) = none :=
      strip?_eq_none_of_head? (head?_append_cons_ne hp (by decide) rest) []
    have hline : '\n' ∉ "//".toList ++ text := by
      rw [List.mem_append, not_or]
      exact ⟨by decide, ho⟩
    have hstart : startsWith "//".toList ("//".toList ++ (text ++ '\n' :: rest)) = true := rfl
    rw [next, hdoc]
    dsimp only
    rw [if_pos hstart, ← List.append_assoc, afterLine_append hline]
  · have hline : '\n' ∉ '/' :: more := fun hm => ho (List.mem_cons_of_mem '/' hm)
    exact next_slashes hline rfl rest

/-- An attribute ends where its bracket closes, on whatever line that is. -/
theorem next_attribute {mark inner : List Char} (hm : mark = "#".toList ∨ mark = "#!".toList)
    (hb : Bracket.square.IsBalanced inner) (rest : List Char) :
    next (mark ++ '[' :: (inner ++ ']' :: rest)) = (.remark, rest) := by
  have he : Bracket.enclosed ('[' :: (inner ++ ']' :: rest)) = .ok (inner, rest) :=
    hb.enclosed (by decide) rest
  have hattribute : next (mark ++ '[' :: (inner ++ ']' :: rest)) =
      ofAttribute (mark ++ '[' :: (inner ++ ']' :: rest)) := by
    rcases hm with rfl | rfl <;> rfl
  have hdrop : (mark ++ '[' :: (inner ++ ']' :: rest)).dropWhile (· != '[') =
      '[' :: (inner ++ ']' :: rest) := by
    rcases hm with rfl | rfl <;> rfl
  rw [hattribute, ofAttribute, hdrop, he]

/-- A `use` item ends at its first semicolon. -/
theorem next_useItem {path : List Char} (ho : ';' ∉ path) (rest : List Char) :
    next ("use ".toList ++ (path ++ ';' :: rest)) = (.remark, rest) := by
  have hlead : Lead.read ("use ".toList ++ (path ++ ';' :: rest)) =
      .ok (⟨Signature.privateWord, []⟩, "use ".toList ++ (path ++ ';' :: rest)) :=
    Lead.read_chars .hidden (List.forall_mem_nil _) ⟨'u', _, rfl, by decide⟩ rfl
  have hpath : ∀ c ∈ "use ".toList ++ path, (c != ';') = true := by
    intro c hc
    rw [bne_iff_ne]
    rintro rfl
    rcases List.mem_append.1 hc with hc | hc
    · exact absurd hc (by decide)
    · exact ho hc
  have hdrop : ("use ".toList ++ (path ++ ';' :: rest)).dropWhile (· != ';') = ';' :: rest := by
    rw [← List.append_assoc, List.dropWhile_append_of_pos hpath, List.dropWhile_cons_of_neg (by simp)]
  have hitem : ofItem ("use ".toList ++ (path ++ ';' :: rest)) =
      (.remark, afterSemicolon ("use ".toList ++ (path ++ ';' :: rest))) := by
    rw [ofItem, hlead]
    rfl
  rw [next_of_lead hlead ⟨'u', _, rfl, rfl⟩, hitem, afterSemicolon, hdrop]

/-- A block comment ends at the first mark that closes it, unless a slash stands directly behind the
mark that opens it: the star of the opening mark and that slash close it at once. -/
theorem next_blockComment {c : List Char} (hc : ¬"*/".toList <:+: c) (rest : List Char) :
    next ("/*".toList ++ (c ++ ("*/".toList ++ rest))) =
      (.remark, if c.head? = some '/' then c.tail ++ ("*/".toList ++ rest) else rest) := by
  have hclose : afterMark "*/".toList ('*' :: (c ++ ("*/".toList ++ rest))) =
      if c.head? = some '/' then c.tail ++ ("*/".toList ++ rest) else rest := by
    rw [afterMark]
    by_cases hs : c.head? = some '/'
    · obtain ⟨c', rfl⟩ := List.head?_eq_some_iff.1 hs
      rfl
    · have hstrip : strip? "*/".toList ('*' :: (c ++ ("*/".toList ++ rest))) = none :=
        strip?_eq_none_of_head? (head?_append_cons_ne hs (by decide) _) []
      rw [hstrip, if_neg hs]
      exact afterMark_close hc rest
  exact congrArg (Prod.mk Piece.remark) hclose

theorem next_of_isRemark {r : List Char} (h : IsRemark r) (rest : List Char) :
    next (r ++ rest) = (.remark, rest) := by
  cases h with
  | lineComment ho hp =>
    rw [List.append_assoc, List.append_assoc]
    exact next_lineComment ho hp rest
  | bracketed hm hb =>
    rw [List.append_assoc, List.cons_append, List.append_assoc]
    exact next_attribute hm hb rest
  | useItem ho =>
    rw [List.append_assoc, List.append_assoc]
    exact next_useItem ho rest

end Piece

theorem IsRemark.first {r : List Char} (h : IsRemark r) : ∃ c s, r = c :: s ∧ isBlank c = false := by
  cases h with
  | lineComment => exact ⟨'/', _, rfl, rfl⟩
  | bracketed hm => rcases hm with rfl | rfl <;> exact ⟨'#', _, rfl, rfl⟩
  | useItem => exact ⟨'u', _, rfl, rfl⟩

namespace Outcome

variable (file : String) (owner : Option String)

/-- A remark only moves the line. -/
theorem ofText_remark {r : List Char} (hf : ∃ c s, r = c :: s ∧ isBlank c = false) (line : Nat)
    (docs : List String) {rest : List Char} (hn : Piece.next (r ++ rest) = (.remark, rest)) :
    ofText file owner line docs (r ++ rest) = ofText file owner (line + lineFeeds r) docs rest := by
  obtain ⟨c, s, rfl, hc⟩ := hf
  exact ofText_piece_append (List.cons_ne_nil _ _) (trimStart_cons hc) hn

/-- Text that is passed over moves the line and keeps the doc lines that wait. -/
theorem ofText_skippable {v : List Char} (hv : IsSkippable v) (line : Nat) (docs : List String)
    (s : List Char) :
    ofText file owner line docs (v ++ s) = ofText file owner (line + lineFeeds v) docs s := by
  induction hv generalizing line with
  | nil => rfl
  | blank hb _ ih =>
    rw [List.append_assoc, ofText_blank_append hb, ih, lineFeeds_append, Nat.add_assoc]
  | remark hr _ ih =>
    rw [List.append_assoc, ofText_remark file owner hr.first line docs (Piece.next_of_isRemark hr _),
      ih, lineFeeds_append, Nat.add_assoc]

end Outcome

open Outcome

/-- What stands below doc lines holds the same, further down, with skippable text in front of it. -/
theorem parseSource_skippable (file : String) {docs v : List Char} (hd : IsDocText docs)
    (hv : IsSkippable v) (t : List Char) :
    parseSource file (docs ++ (v ++ t)) =
      (parseSource file (docs ++ t)).movedDown (lineFeeds v) := by
  obtain ⟨docs', hdocs⟩ := ofText_docText file none hd 1 []
  rw [parseSource, parseSource, hdocs, hdocs, ofText_skippable file none hv, ofText_add_line]

theorem parseSource_skippable_attribute :
    parseSource "a.rs" ("/// Adds.\n".toList ++
        ("////x\n#![cfg(\n  all([a]))]use a::\x7bb\x7d;\n".toList ++ "fn add() \x7b\x7d".toList)) =
      (parseSource "a.rs" ("/// Adds.\n".toList ++ "fn add() \x7b\x7d".toList)).movedDown 3 := by
  have hdocs : IsDocText ([] ++ ("///".toList ++ (" Adds.".toList ++ ['\n']))) :=
    .line rfl (by decide) (.blank rfl)
  have hcomment : IsRemark ("//".toList ++ ("//x".toList ++ ['\n'])) :=
    .lineComment (by decide) (.inr ⟨"x".toList, rfl⟩)
  have hattribute : IsRemark ("#!".toList ++ '[' :: ("cfg(\n  all([a]))".toList ++ [']'])) :=
    .bracketed (.inr rfl) (by decide)
  have huse : IsRemark ("use ".toList ++ ("a::\x7bb\x7d".toList ++ [';'])) := .useItem (by decide)
  have hfeed : IsSkippable ("\n".toList ++ []) := .blank rfl .nil
  exact parseSource_skippable "a.rs" hdocs
    (.remark hcomment (.remark hattribute (.remark huse hfeed))) "fn add() \x7b\x7d".toList

/-- A block comment hides what stands in it, unless that begins with a slash: then the comment ends at
the slash, and the rest of it is read. -/
theorem parseSource_blockComment (file : String) {c : List Char} (hc : ¬"*/".toList <:+: c)
    (t : List Char) :
    (c.head? ≠ some '/' → parseSource file ("/*".toList ++ (c ++ ("*/".toList ++ t))) =
      (parseSource file t).movedDown (lineFeeds c)) ∧
    ∀ c', c = '/' :: c' → parseSource file ("/*".toList ++ (c ++ ("*/".toList ++ t))) =
      parseSource file (c' ++ ("*/".toList ++ t)) := by
  have hn := Piece.next_blockComment hc t
  constructor
  · intro hs
    have hfeeds : lineFeeds ("/*".toList ++ (c ++ "*/".toList)) = lineFeeds c := by
      rw [lineFeeds_append, lineFeeds_append]
      exact Nat.zero_add _
    have happend : "/*".toList ++ (c ++ ("*/".toList ++ t)) =
        "/*".toList ++ (c ++ "*/".toList) ++ t := by
      simp only [List.append_assoc]
    rw [if_neg hs, happend] at hn
    have hfirst : ∃ d s, "/*".toList ++ (c ++ "*/".toList) = d :: s ∧ isBlank d = false :=
      ⟨'/', _, rfl, rfl⟩
    rw [happend, parseSource, ofText_remark file none hfirst 1 [] hn, hfeeds, ofText_add_line,
      parseSource]
  · rintro c' rfl
    have hfirst : ∃ d s, "/*/".toList = d :: s ∧ isBlank d = false := ⟨'/', _, rfl, rfl⟩
    exact ofText_remark file none hfirst 1 [] hn

theorem parseSource_blockComment_twoLines :
    ¬"*/".toList <:+: " fn a() \x7b\n // * /".toList ∧
      parseSource "a.rs" ("/*".toList ++ (" fn a() \x7b\n // * /".toList ++ ("*/".toList ++
        "fn b() \x7b\x7d".toList))) = (parseSource "a.rs" "fn b() \x7b\x7d".toList).movedDown 1 := by
  have hc : ¬"*/".toList <:+: " fn a() \x7b\n // * /".toList := by decide
  exact ⟨hc, (parseSource_blockComment "a.rs" hc "fn b() \x7b\x7d".toList).1 (by decide)⟩

/-- A function that a comment hides is read when a slash stands directly behind the opening mark. -/
theorem exists_parseSource_blockComment_ne :
    ∃ c t : List Char, ¬"*/".toList <:+: c ∧
      parseSource "a.rs" ("/*".toList ++ (c ++ ("*/".toList ++ t))) ≠
        (parseSource "a.rs" t).movedDown (lineFeeds c) := by
  refine ⟨"/ fn hidden() \x7b\x7d ".toList, "\nfn g() \x7b\x7d\n".toList, by decide, ?_⟩
  have hread : (parseSource "a.rs" ("/*".toList ++ ("/ fn hidden() \x7b\x7d ".toList ++ ("*/".toList ++
      "\nfn g() \x7b\x7d\n".toList)))).records.length = 2 := by decide +kernel
  have hexpected : ((parseSource "a.rs" "\nfn g() \x7b\x7d\n".toList).movedDown
      (lineFeeds "/ fn hidden() \x7b\x7d ".toList)).records.length = 1 := by decide +kernel
  intro h
  rw [h, hexpected] at hread
  exact absurd hread (by decide)

end ApiSurface
