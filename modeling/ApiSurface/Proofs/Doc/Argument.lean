import ApiSurface.Doc.Argument
import ApiSurface.Proofs.Text.Pattern
import ApiSurface.Proofs.Text.Trim

namespace ApiSurface

open Text

/-- A backquote or nothing. -/
def IsQuote (s : List Char) : Prop := s = [] ∨ s = "`".toList

section Quote

variable {quote s gap : List Char} {c : Char}

theorem exists_afterBackquote (s : List Char) :
    ∃ quote, IsQuote quote ∧ s = quote ++ afterBackquote s := by
  rw [afterBackquote]
  cases h : strip? "`".toList s with
  | none => exact ⟨[], .inl rfl, rfl⟩
  | some rest => exact ⟨"`".toList, .inr rfl, strip?_eq_some_iff.1 h⟩

theorem afterBackquote_append (hq : IsQuote quote) (hs : s.head? ≠ some '\x60') :
    afterBackquote (quote ++ s) = s := by
  rcases hq with rfl | rfl
  · have hnone : strip? "`".toList s = none := strip?_eq_none_of_head? hs []
    rw [List.nil_append, afterBackquote, hnone, Option.getD_none]
  · rw [afterBackquote, strip?_append, Option.getD_some]

theorem IsQuote.forall_head?_append (hq : IsQuote quote) (hs : ∀ c ∈ s.head?, isBlank c = false) :
    ∀ c ∈ (quote ++ s).head?, isBlank c = false := by
  rcases hq with rfl | rfl
  · exact hs
  · rintro c hc
    cases hc
    decide

theorem head?_ne_of_isIdentifier (hs : isIdentifier s = true) (hc : isWordStart c = false) :
    s.head? ≠ some c := by
  intro h
  obtain ⟨more, rfl⟩ := List.head?_eq_some_iff.1 h
  rw [isIdentifier, hc] at hs
  cases hs

theorem IsQuote.continuesWord (hq : IsQuote quote) : continuesWord quote = false := by
  rcases hq with rfl | rfl <;> rfl

end Quote

namespace ArgumentEntry

/-- How an entry is written: a bullet, the name, which may have a backquote on either side, a colon
and a text on one line, with white space between any two of them. -/
inductive IsWrittenAs : ArgumentEntry → List Char → Prop
  | mk {bullet : Char} {indent opening name closing gap lead text : List Char}
      (starts : isBullet bullet = true) (indented : isBlankText indent = true)
      (opens : IsQuote opening) (named : isIdentifier name = true) (closes : IsQuote closing)
      (spaced : isBlankText gap = true) (led : isBlankText lead = true) (oneLine : '\n' ∉ text) :
      IsWrittenAs ⟨name, trim text⟩ (bullet :: (indent ++ (opening ++ (name ++ (closing ++
        (gap ++ ':' :: (lead ++ text)))))))

/-- The form of an entry as a pattern for the whole line. -/
def pattern : List Atom :=
  [.one isBullet, .many isBlank, .optional (· == '\x60'), .one isWordStart, .many isWordChar,
    .optional (· == '\x60'), .many isBlank, .one (· == ':'), .many isBlank, .many (· != '\n')]

/-- The entry that the parts of a line make, one part for each atom of the pattern. -/
def ofParts? : List (List Char) → Option ArgumentEntry
  | [_, _, _, first, more, _, _, _, _, text] => some ⟨first ++ more, trim text⟩
  | _ => none

/-- The entry of the preferred way to match the pattern. -/
def ofPattern? (line : List Char) : Option ArgumentEntry :=
  (waysToMatch pattern line).head?.bind ofParts?

section Read

variable {line rest : List Char} {e e' : ArgumentEntry}

theorem descriptionAfter?_eq_some_iff {s description : List Char} :
    descriptionAfter? s = some description ↔
      ∃ rest, s = ':' :: rest ∧ '\n' ∉ trimStart rest ∧ description = trim rest := by
  unfold descriptionAfter?
  split
  · rename_i rest
    simp [trim_trimStart, eq_comm]
  · rename_i hs
    simp only [reduceCtorEq, false_iff]
    rintro ⟨rest, rfl, -⟩
    exact hs rest rfl

theorem IsWrittenAs.of_ofBullet? {bullet : Char} (hb : isBullet bullet = true)
    (h : ofBullet? (bullet :: rest) = some e) : e.IsWrittenAs (bullet :: rest) := by
  obtain ⟨⟨name, behind⟩, hword, h⟩ := Option.bind_eq_some_iff.1 h
  obtain ⟨description, hdescription, h⟩ := Option.bind_eq_some_iff.1 h
  cases h
  obtain ⟨hname, hident, -⟩ := word?_eq_some hword
  obtain ⟨text, hcolon, hline, rfl⟩ := descriptionAfter?_eq_some_iff.1 hdescription
  obtain ⟨indent, hindent, hrest⟩ := exists_blank_append rest
  obtain ⟨opening, hopening, hopened⟩ := exists_afterBackquote (trimStart rest)
  obtain ⟨closing, hclosing, hclosed⟩ := exists_afterBackquote behind
  obtain ⟨gap, hgap, hspaced⟩ := exists_blank_append (afterBackquote behind)
  obtain ⟨lead, hlead, htext⟩ := exists_blank_append text
  have hall : rest = indent ++ (opening ++ (name ++ (closing ++ (gap ++ ':' ::
      (lead ++ trimStart text))))) := by
    rw [← htext, ← hcolon, ← hspaced, ← hclosed, ← hname, ← hopened, ← hrest]
  have hwritten := IsWrittenAs.mk hb hindent hopening hident hclosing hgap hlead hline
  rw [← hall, trim_trimStart] at hwritten
  exact hwritten

theorem IsWrittenAs.ofBullet? (h : e.IsWrittenAs line) : ofBullet? line = some e := by
  cases h with
  | @mk bullet indent opening name closing gap lead text _ indented opens named closes spaced led
      oneLine =>
    obtain ⟨c, more, rfl, hc⟩ := (IsTight.of_isIdentifier named).first
    have hcolon : (gap ++ ':' :: (lead ++ text)).head? ≠ some '\x60' :=
      head?_append_cons_ne (head?_ne_of_isBlankText spaced (by decide)) (by decide) _
    have hends : continuesWord (closing ++ (gap ++ ':' :: (lead ++ text))) = false :=
      continuesWord_append closes.continuesWord
        (continuesWord_append (continuesWord_of_isBlankText spaced) rfl)
    have hname : (c :: more ++ (closing ++ (gap ++ ':' :: (lead ++ text)))).head? ≠
        some '\x60' := by
      rw [List.cons_append, List.head?_cons]
      exact head?_ne_of_isIdentifier named (by decide)
    have hopening : ∀ d ∈ (opening ++ (c :: more ++ (closing ++
        (gap ++ ':' :: (lead ++ text))))).head?, isBlank d = false := by
      refine opens.forall_head?_append fun d hd => ?_
      cases hd
      exact hc
    have hline : '\n' ∉ trimStart text := fun hm => oneLine ((trimStart_suffix text).subset hm)
    have hdescription : descriptionAfter? (':' :: (lead ++ text)) = some (trim text) :=
      descriptionAfter?_eq_some_iff.2 ⟨lead ++ text, rfl, by rwa [trimStart_blank_append led],
        (trim_blank_append led text).symm⟩
    rw [ArgumentEntry.ofBullet?, trimStart_blank_append indented, trimStart_eq_self hopening,
      afterBackquote_append opens hname, word?_append named hends]
    change (descriptionAfter? (trimStart (afterBackquote (closing ++ _)))).bind _ = _
    rw [afterBackquote_append closes hcolon, trimStart_blank_append spaced,
      trimStart_cons (by decide), hdescription]
    rfl

theorem ofBullet?_eq_some_iff (hb : line.head?.any isBullet = true) :
    ofBullet? line = some e ↔ e.IsWrittenAs line := by
  refine ⟨fun h => ?_, IsWrittenAs.ofBullet?⟩
  cases line with
  | nil => cases hb
  | cons bullet rest => exact .of_ofBullet? hb h

theorem IsWrittenAs.starts (h : e.IsWrittenAs line) : line.head?.any isBullet = true := by
  cases h with
  | mk starts => exact starts

theorem IsWrittenAs.unique (h : e.IsWrittenAs line) (h' : e'.IsWrittenAs line) : e = e' :=
  Option.some.inj (h.ofBullet?.symm.trans h'.ofBullet?)

end Read

section Pattern

variable {line : List Char} {parts : List (List Char)} {e : ArgumentEntry}

theorem takes_backquote_iff {s : List Char} :
    (Atom.optional (· == '\x60')).Takes s ↔ IsQuote s := by
  simp [Atom.Takes, IsQuote]

/-- In whatever way the pattern matches, the line is written as the entry of the parts. -/
theorem exists_ofParts? (h : parts ∈ waysToMatch pattern line) :
    ∃ e, ofParts? parts = some e ∧ e.IsWrittenAs line := by
  obtain ⟨rfl, hparts⟩ := mem_waysToMatch_iff.1 h
  obtain _ | ⟨⟨bullet, rfl, hbullet⟩, hparts⟩ := hparts
  obtain _ | ⟨hindent, hparts⟩ := hparts
  obtain _ | ⟨hopening, hparts⟩ := hparts
  obtain _ | ⟨⟨c, rfl, hc⟩, hparts⟩ := hparts
  obtain _ | ⟨hmore, hparts⟩ := hparts
  obtain _ | ⟨hclosing, hparts⟩ := hparts
  obtain _ | ⟨hgap, hparts⟩ := hparts
  obtain _ | ⟨⟨colon, rfl, hcolon⟩, hparts⟩ := hparts
  obtain _ | ⟨hlead, hparts⟩ := hparts
  obtain _ | ⟨htext, hparts⟩ := hparts
  cases hparts
  rename_i indent opening more closing gap lead text
  rw [beq_iff_eq] at hcolon
  subst hcolon
  have hname : isIdentifier (c :: more) = true := by
    rw [isIdentifier, Bool.and_eq_true, List.all_eq_true]
    exact ⟨hc, hmore⟩
  have hline : '\n' ∉ text := fun hm => absurd (htext _ hm) (by decide)
  have hwritten := IsWrittenAs.mk hbullet (List.all_eq_true.2 hindent)
    (takes_backquote_iff.1 hopening) hname (takes_backquote_iff.1 hclosing)
    (List.all_eq_true.2 hgap) (List.all_eq_true.2 hlead) hline
  exact ⟨⟨c :: more, trim text⟩, rfl, by simpa using hwritten⟩

theorem exists_waysToMatch (h : e.IsWrittenAs line) :
    ∃ parts, parts ∈ waysToMatch pattern line := by
  cases h with
  | @mk bullet indent opening name closing gap lead text starts indented opens named closes spaced
      led oneLine =>
    obtain ⟨c, more, rfl, -⟩ := (IsTight.of_isIdentifier named).first
    rw [isIdentifier, Bool.and_eq_true, List.all_eq_true] at named
    have hline : ∀ d ∈ text, (d != '\n') = true := by
      intro d hd
      rw [bne_iff_ne]
      exact ne_of_mem_of_not_mem hd oneLine
    refine ⟨[[bullet], indent, opening, [c], more, closing, gap, [':'], lead, text],
      mem_waysToMatch_iff.2 ⟨by simp, ?_⟩⟩
    exact .cons ⟨bullet, rfl, starts⟩ (.cons (List.all_eq_true.1 indented)
      (.cons (takes_backquote_iff.2 opens) (.cons ⟨c, rfl, named.1⟩ (.cons named.2
      (.cons (takes_backquote_iff.2 closes) (.cons (List.all_eq_true.1 spaced)
      (.cons ⟨':', rfl, rfl⟩ (.cons (List.all_eq_true.1 led) (.cons hline .nil)))))))))

/-- What is read from a bullet line is what the preferred way to match the pattern gives, as every
other way does. -/
theorem ofBullet?_eq_ofPattern? (hb : line.head?.any isBullet = true) :
    ofBullet? line = ofPattern? line := by
  rw [ofPattern?]
  cases hways : waysToMatch pattern line with
  | nil =>
    rw [List.head?_nil, Option.bind_none, Option.eq_none_iff_forall_ne_some]
    intro e he
    obtain ⟨parts, hparts⟩ := exists_waysToMatch ((ofBullet?_eq_some_iff hb).1 he)
    rw [hways] at hparts
    cases hparts
  | cons parts more =>
    have hparts : parts ∈ waysToMatch pattern line := by
      rw [hways]
      exact List.mem_cons_self
    obtain ⟨e, he, hwritten⟩ := exists_ofParts? hparts
    rw [List.head?_cons, Option.bind_some, he]
    exact hwritten.ofBullet?

end Pattern

end ArgumentEntry

open ArgumentEntry (ofBullet?_eq_some_iff ofBullet?_eq_ofPattern?)

/-- Trimmed lines told apart: each bullet line gives one entry, if it is written as that, or else it
is malformed, and other lines give nothing. -/
inductive AreEntries :
    (lines : List (List Char)) → List ArgumentEntry → (malformed : List (List Char)) → Prop
  | nil : AreEntries [] [] []
  | entry {line : List Char} {lines malformed : List (List Char)} {e : ArgumentEntry}
      {entries : List ArgumentEntry} (written : e.IsWrittenAs line)
      (more : AreEntries lines entries malformed) :
      AreEntries (line :: lines) (e :: entries) malformed
  | malformed {line : List Char} {lines malformed : List (List Char)} {entries : List ArgumentEntry}
      (starts : line.head?.any isBullet = true)
      (unwritten : ∀ e : ArgumentEntry, ¬e.IsWrittenAs line)
      (more : AreEntries lines entries malformed) :
      AreEntries (line :: lines) entries (line :: malformed)
  | other {line : List Char} {lines malformed : List (List Char)} {entries : List ArgumentEntry}
      (plain : line.head?.any isBullet = false) (more : AreEntries lines entries malformed) :
      AreEntries (line :: lines) entries malformed

/-- The lines that begin with a bullet. -/
def bulletLines (lines : List (List Char)) : List (List Char) :=
  lines.filter fun line => line.head?.any isBullet

theorem AreEntries.of_lines (lines : List (List Char)) :
    AreEntries lines ((bulletLines lines).filterMap ArgumentEntry.ofBullet?)
      ((bulletLines lines).filter fun line => (ArgumentEntry.ofBullet? line).isNone) := by
  induction lines with
  | nil => exact .nil
  | cons line lines ih =>
    cases hb : line.head?.any isBullet with
    | false =>
      have hlines : bulletLines (line :: lines) = bulletLines lines :=
        List.filter_cons_of_neg (by simp [hb])
      rw [hlines]
      exact .other hb ih
    | true =>
      have hlines : bulletLines (line :: lines) = line :: bulletLines lines :=
        List.filter_cons_of_pos hb
      rw [hlines]
      cases he : ArgumentEntry.ofBullet? line with
      | some e =>
        rw [List.filterMap_cons_some he, List.filter_cons_of_neg (by simp [he])]
        exact .entry ((ofBullet?_eq_some_iff hb).1 he) ih
      | none =>
        rw [List.filterMap_cons_none he, List.filter_cons_of_pos (by simp [he])]
        refine .malformed hb (fun e hwritten => ?_) ih
        rw [hwritten.ofBullet?] at he
        cases he

namespace DocComment

/-- The lines of the first section of arguments; none without one. -/
def argumentSection (d : DocComment) : List (List Char) :=
  (d.section? "Arguments").elim [] Section.lines

theorem argumentLines_eq (d : DocComment) :
    d.argumentLines = bulletLines (d.argumentSection.map trim) := by
  rw [argumentLines, argumentSection]
  cases d.section? "Arguments" <;> rfl

/-- The bullet lines of the first section of arguments are told apart by how they are written, and
no line is written as two entries. The pattern finds the same entries. -/
theorem argumentEntries_exact (d : DocComment) :
    AreEntries (d.argumentSection.map trim) d.argumentEntries d.malformedArguments ∧
    (∀ (line : List Char) (e e' : ArgumentEntry),
      e.IsWrittenAs line → e'.IsWrittenAs line → e = e') ∧
    d.argumentEntries = d.argumentLines.filterMap ArgumentEntry.ofPattern? := by
  refine ⟨?_, fun line e e' h h' => h.unique h', ?_⟩
  · rw [argumentEntries, malformedArguments, argumentLines_eq]
    exact .of_lines _
  · rw [argumentEntries]
    apply List.filterMap_congr
    intro line hline
    rw [argumentLines_eq] at hline
    exact ofBullet?_eq_ofPattern? (List.mem_filter.1 hline).2

theorem argumentEntries_exact_colons :
    let d := ofLines ([" # Arguments", " * `a`: first: more", "-b :", "   goes on",
      " * `d` missing colon"].map String.toList)
    let a : ArgumentEntry := ⟨"a".toList, "first: more".toList⟩
    let b : ArgumentEntry := ⟨"b".toList, []⟩
    AreEntries (d.argumentSection.map trim) [a, b] ["* `d` missing colon".toList] ∧
      a.IsWrittenAs "* `a`: first: more".toList ∧
      ¬(⟨"a".toList, "more".toList⟩ : ArgumentEntry).IsWrittenAs "* `a`: first: more".toList ∧
      [a, b] = d.argumentLines.filterMap ArgumentEntry.ofPattern? := by
  intro d a b
  have hentries : d.argumentEntries = [a, b] := by decide +kernel
  have hmalformed : d.malformedArguments = ["* `d` missing colon".toList] := by decide +kernel
  have hwritten : a.IsWrittenAs "* `a`: first: more".toList :=
    (ofBullet?_eq_some_iff (by decide)).1 (by decide +kernel)
  obtain ⟨hlines, hunique, hpattern⟩ := argumentEntries_exact d
  rw [hentries] at hlines hpattern
  rw [hmalformed] at hlines
  refine ⟨hlines, hwritten, fun hother => ?_, hpattern⟩
  exact absurd (hunique _ _ _ hwritten hother) (by decide)

end DocComment

end ApiSurface
