import ApiSurface.Doc.Comment
import ApiSurface.Proofs.Text.Trim
import Mathlib.Data.List.Forall2

namespace ApiSurface

open Text

/-- A line as the one pass over a comment reads it. -/
structure ReadLine where
  text : List Char
  /-- Whether the marks above the line leave a fence open. -/
  inFence : Bool
  deriving DecidableEq, Repr

namespace ReadLine

/-- The title that the line gives, if it is a header. -/
def title? (l : ReadLine) : Option (List Char) := titleAt? l.inFence l.text

/-- Whether the line was read inside a fence and is not the mark that closes it. -/
def isCode (l : ReadLine) : Bool := l.inFence && !isFence l.text

/-- One line stands for another: it is a header with the same title, or else the same text up to the
white space at its ends, and no header either. -/
structure StandsFor (w l : ReadLine) : Prop where
  inFence : w.inFence = l.inFence
  title : w.title? = l.title?
  text : l.title? = none → trim w.text = trim l.text

end ReadLine

/-- The pass over lines, from a place inside a fence or not. -/
def readLines (inFence : Bool) : List (List Char) → List ReadLine
  | [] => []
  | line :: rest => ⟨line, inFence⟩ :: readLines (inFence != isFence line) rest

/-- Whether the pass stands inside a fence behind lines. -/
def fenceAfter (inFence : Bool) (lines : List (List Char)) : Bool :=
  lines.foldl (fun state line => state != isFence line) inFence

/-- A header and the lines under it, as they were read. -/
structure Passage where
  header : ReadLine
  under : List ReadLine
  deriving DecidableEq, Repr

namespace Passage

def lines (p : Passage) : List ReadLine := p.header :: p.under

/-- The section is what the passage holds. Its code is what the pass read inside of fences. -/
structure Makes (p : Passage) (s : Section) : Prop where
  outside : p.header.inFence = false
  title : p.header.title? = some s.title
  plain : ∀ l ∈ p.under, l.title? = none
  lines : s.lines = p.under.map fun l => trimEnd l.text
  code : s.code = (p.under.filter ReadLine.isCode).flatMap fun l => trimEnd l.text ++ ['\n']

end Passage

/-- The lines of a section under a header of one hash. -/
def Section.written (s : Section) : List (List Char) := ("# ".toList ++ s.title) :: s.lines

/-- The lines of a comment that reads as this one. -/
def DocComment.written (d : DocComment) : List (List Char) :=
  d.description ++ d.sections.flatMap Section.written

section Line

variable {line line' title : List Char} {inFence : Bool}

theorem isFence_eq_startsWith_trim (line : List Char) :
    isFence line = startsWith "```".toList (trim line) := by
  obtain ⟨back, hback, hline⟩ := exists_append_blank (trimStart line)
  rw [isFence, hline, startsWith_append_blank (by decide) hback, trim]

theorem isFence_congr (h : trim line = trim line') : isFence line = isFence line' := by
  rw [isFence_eq_startsWith_trim, isFence_eq_startsWith_trim, h]

theorem titleAt?_congr (h : trim line = trim line') (inFence : Bool) :
    titleAt? inFence line = titleAt? inFence line' := by
  rw [titleAt?, titleAt?, headerTitle?, headerTitle?, h]

theorem titleAt?_eq_some_iff :
    titleAt? inFence line = some title ↔ inFence = false ∧ headerTitle? line = some title := by
  cases inFence <;> simp [titleAt?]

/-- A header begins with a hash, and a fence with backquotes. -/
theorem isFence_of_headerTitle? (h : headerTitle? line = some title) : isFence line = false := by
  rw [isFence_eq_startsWith_trim]
  unfold headerTitle? at h
  split at h
  · rename_i hline
    rw [hline]
    rfl
  · cases h

theorem isTight_of_headerTitle? (h : headerTitle? line = some title) : IsTight title := by
  unfold headerTitle? at h
  split at h
  · dsimp only at h
    split at h
    · rename_i hc
      cases h
      rw [Bool.and_eq_true] at hc
      exact isTight_trim (by simpa using hc.2)
    · cases h
  · cases h

theorem headerTitle?_written (ht : IsTight title) :
    headerTitle? ("# ".toList ++ title) = some title := by
  have htight : IsTight ('#' :: ' ' :: title) := by
    obtain ⟨t, c, rfl, hc⟩ := ht.last
    exact ⟨⟨'#', _, rfl, by decide⟩, ⟨'#' :: ' ' :: t, c, rfl, hc⟩⟩
  have htitle : trim (' ' :: title) = title := (trim_cons_blank (by decide)).trans ht.trim
  have hblank : isBlank ' ' = true := by decide
  change headerTitle? ('#' :: ' ' :: title) = some title
  simp [headerTitle?, htight.trim, htitle, hblank, ht.ne_nil]

/-- A line is a header, which the pass meets outside of fences and behind which it is there again, or
it is plain. -/
@[elab_as_elim]
theorem pass_induction {motive : Bool → List (List Char) → Prop}
    (nil : ∀ inFence, motive inFence [])
    (header : ∀ (line title : List Char) (rest : List (List Char)),
      headerTitle? line = some title → motive false rest → motive false (line :: rest))
    (plain : ∀ (inFence : Bool) (line : List Char) (rest : List (List Char)),
      titleAt? inFence line = none → motive (inFence != isFence line) rest →
        motive inFence (line :: rest))
    (inFence : Bool) (lines : List (List Char)) : motive inFence lines := by
  induction lines generalizing inFence with
  | nil => exact nil inFence
  | cons line rest ih =>
    cases ht : titleAt? inFence line with
    | some title =>
      obtain ⟨rfl, hheader⟩ := titleAt?_eq_some_iff.1 ht
      exact header line title rest hheader (ih false)
    | none => exact plain inFence line rest ht (ih _)

end Line

namespace DocComment

variable {line title : List Char} {inFence : Bool}

theorem split_header (ht : headerTitle? line = some title) (rest : List (List Char)) :
    split false (line :: rest) =
      ([], ⟨title, (split false rest).1.map trimEnd⟩ :: (split false rest).2) := by
  simp [split, titleAt?, ht, isFence_of_headerTitle? ht]

theorem split_plain (ht : titleAt? inFence line = none) (rest : List (List Char)) :
    split inFence (line :: rest) = (line :: (split (inFence != isFence line) rest).1,
      (split (inFence != isFence line) rest).2) := by
  simp [split, ht]

theorem readLines_header (ht : headerTitle? line = some title) (rest : List (List Char)) :
    readLines false (line :: rest) = ⟨line, false⟩ :: readLines false rest := by
  simp [readLines, isFence_of_headerTitle? ht]

theorem length_readLines (inFence : Bool) (lines : List (List Char)) :
    (readLines inFence lines).length = lines.length := by
  induction lines generalizing inFence with
  | nil => rfl
  | cons line lines ih => rw [readLines, List.length_cons, List.length_cons, ih]

theorem map_title_split (inFence : Bool) (lines : List (List Char)) :
    (split inFence lines).2.map Section.title =
      (readLines inFence lines).filterMap ReadLine.title? := by
  induction inFence, lines using pass_induction with
  | nil => rfl
  | header line title rest ht ih =>
    have hread : (⟨line, false⟩ : ReadLine).title? = some title := ht
    rw [split_header ht, readLines_header ht, List.map_cons, ih, List.filterMap_cons_some hread]
  | plain inFence line rest ht ih =>
    have hread : (⟨line, inFence⟩ : ReadLine).title? = none := ht
    rw [split_plain ht, readLines, ih, List.filterMap_cons_none hread]

section Append

variable {front rest : List (List Char)} {earlier : List Section} {last : Section}

theorem fenceAfter_header (ht : headerTitle? line = some title) (rest : List (List Char)) :
    fenceAfter false (line :: rest) = fenceAfter false rest := by
  rw [fenceAfter, List.foldl_cons, isFence_of_headerTitle? ht]
  rfl

theorem split_append_of_nil (h : (split inFence front).2 = []) (rest : List (List Char)) :
    split inFence (front ++ rest) =
      ((split inFence front).1 ++ (split (fenceAfter inFence front) rest).1,
        (split (fenceAfter inFence front) rest).2) := by
  induction inFence, front using pass_induction with
  | nil => rfl
  | header line title front ht =>
    rw [split_header ht] at h
    cases h
  | plain inFence line front ht ih =>
    rw [split_plain ht] at h
    rw [List.cons_append, split_plain ht, split_plain ht, ih h]
    rfl

/-- The last section among lines goes on with what follows them up to the next header. -/
theorem split_append_of_concat (h : (split inFence front).2 = earlier ++ [last])
    (rest : List (List Char)) :
    split inFence (front ++ rest) = ((split inFence front).1, earlier ++
      ⟨last.title, last.lines ++ (split (fenceAfter inFence front) rest).1.map trimEnd⟩ ::
        (split (fenceAfter inFence front) rest).2) := by
  induction inFence, front using pass_induction generalizing earlier with
  | nil => cases earlier <;> cases h
  | header line title front ht ih =>
    rw [split_header ht] at h
    rw [List.cons_append, split_header ht, split_header ht, fenceAfter_header ht]
    cases earlier with
    | nil =>
      obtain ⟨hlast, hnil⟩ := List.cons.inj h
      rw [split_append_of_nil hnil, ← hlast, List.map_append]
      rfl
    | cons first earlier =>
      obtain ⟨rfl, hmore⟩ := List.cons.inj h
      rw [ih hmore]
      rfl
  | plain inFence line front ht ih =>
    rw [split_plain ht] at h
    rw [List.cons_append, split_plain ht, split_plain ht, ih h]
    rfl

end Append

section Code

/-- Lines that were read are those in front of the first header and those of the passages, and the
sections are made of the passages. -/
structure IsDivided (inFence : Bool) (lines : List (List Char)) (front : List ReadLine)
    (passages : List Passage) : Prop where
  all : readLines inFence lines = front ++ passages.flatMap Passage.lines
  before : (split inFence lines).1 = front.map ReadLine.text
  plain : ∀ l ∈ front, l.title? = none
  /-- A scan that begins in the same state finds the same code in front of the first header. -/
  code : Section.fencedLines inFence (front.map fun l => trimEnd l.text) =
    (front.filter ReadLine.isCode).map fun l => trimEnd l.text
  sections : List.Forall₂ Passage.Makes passages (split inFence lines).2

theorem fencedLines_trimEnd_cons (inFence : Bool) (line : List Char) (rest : List (List Char)) :
    Section.fencedLines inFence (trimEnd line :: rest) =
      (if (⟨line, inFence⟩ : ReadLine).isCode then [trimEnd line] else []) ++
        Section.fencedLines (inFence != isFence line) rest := by
  have hfence : isFence (trimEnd line) = isFence line := isFence_congr (trim_trimEnd line)
  rw [Section.fencedLines, hfence, ReadLine.isCode]
  cases isFence line <;> cases inFence <;> rfl

theorem exists_isDivided (inFence : Bool) (lines : List (List Char)) :
    ∃ front passages, IsDivided inFence lines front passages := by
  induction inFence, lines using pass_induction with
  | nil => exact ⟨[], [], rfl, rfl, by simp, rfl, .nil⟩
  | header line title rest ht ih =>
    -- The pass stands outside of fences here, which is where a scan of the section alone begins.
    obtain ⟨front, passages, h⟩ := ih
    have hmakes : Passage.Makes ⟨⟨line, false⟩, front⟩ ⟨title, (split false rest).1.map trimEnd⟩ :=
      { outside := rfl
        title := ht
        plain := h.plain
        lines := by rw [h.before, List.map_map]; rfl
        code := by
          rw [Section.code, h.before, List.map_map]
          exact (congrArg (List.flatMap (· ++ ['\n'])) h.code).trans (List.flatMap_map _ _ _) }
    refine ⟨[], ⟨⟨line, false⟩, front⟩ :: passages, ?_, ?_, by simp, rfl, ?_⟩
    · rw [readLines_header ht, h.all]
      rfl
    · rw [split_header ht]
      rfl
    · rw [split_header ht]
      exact .cons hmakes h.sections
  | plain inFence line rest ht ih =>
    obtain ⟨front, passages, h⟩ := ih
    have hplain : ∀ l ∈ ⟨line, inFence⟩ :: front, l.title? = none :=
      List.forall_mem_cons.2 ⟨ht, h.plain⟩
    refine ⟨⟨line, inFence⟩ :: front, passages, ?_, ?_, hplain, ?_, ?_⟩
    · rw [readLines, h.all]
      rfl
    · rw [split_plain ht, h.before]
      rfl
    · rw [List.map_cons, fencedLines_trimEnd_cons, h.code, List.filter_cons]
      split <;> rfl
    · rw [split_plain ht]
      exact h.sections

/-- The code of each section is what the pass over the whole comment read inside of fences, and no
line that it read there is a header. -/
theorem ofLines_sections_code (lines : List (List Char)) : ∃ front passages,
    readLines false lines = front ++ passages.flatMap Passage.lines ∧
    (∀ l ∈ front, l.title? = none) ∧
    (ofLines lines).description = front.map (fun l => trim l.text) ∧
    List.Forall₂ Passage.Makes passages (ofLines lines).sections := by
  obtain ⟨front, passages, h⟩ := exists_isDivided false lines
  refine ⟨front, passages, h.all, h.plain, ?_, h.sections⟩
  rw [ofLines]
  dsimp only
  rw [h.before, List.map_map]
  rfl

end Code

section Written

theorem standsFor_header (ht : headerTitle? line = some title) :
    ReadLine.StandsFor ⟨"# ".toList ++ title, false⟩ ⟨line, false⟩ where
  inFence := rfl
  title := (headerTitle?_written (isTight_of_headerTitle? ht)).trans ht.symm
  text := by
    intro hnone
    cases ht.symm.trans hnone

theorem standsFor_of_trim_eq {line' : List Char} (h : trim line' = trim line) (inFence : Bool) :
    ReadLine.StandsFor ⟨line', inFence⟩ ⟨line, inFence⟩ :=
  ⟨rfl, titleAt?_congr h inFence, fun _ => h⟩

/-- What was cut, with white space dropped in front of the first header, is written back line for
line, and cutting that again gives the same. -/
theorem split_written {g : List Char → List Char} (hg : ∀ line, trim (g line) = trim line)
    (inFence : Bool) (lines : List (List Char)) :
    let again := (split inFence lines).1.map g ++ (split inFence lines).2.flatMap Section.written
    List.Forall₂ ReadLine.StandsFor (readLines inFence again) (readLines inFence lines) ∧
      split inFence again = ((split inFence lines).1.map g, (split inFence lines).2) := by
  induction inFence, lines using pass_induction generalizing g with
  | nil => exact ⟨.nil, rfl⟩
  | header line title rest ht ih =>
    -- The lines under a header are trimmed at the end only, whatever `g` drops in front of it.
    have hwritten := headerTitle?_written (isTight_of_headerTitle? ht)
    obtain ⟨hlines, hsplit⟩ := ih trim_trimEnd
    have htrim : ((split false rest).1.map trimEnd).map trimEnd = (split false rest).1.map trimEnd := by
      simp [trimEnd_trimEnd]
    rw [split_header ht]
    simp only [List.map_nil, List.nil_append, List.flatMap_cons, Section.written, List.cons_append]
    rw [readLines_header ht, readLines_header hwritten, split_header hwritten, hsplit, htrim]
    exact ⟨.cons (standsFor_header ht) hlines, rfl⟩
  | plain inFence line rest ht ih =>
    have hfence : isFence (g line) = isFence line := isFence_congr (hg line)
    have hplain : titleAt? inFence (g line) = none := (titleAt?_congr (hg line) inFence).trans ht
    obtain ⟨hlines, hsplit⟩ := ih hg
    rw [split_plain ht]
    simp only [List.map_cons, List.cons_append]
    rw [split_plain hplain, readLines, readLines, hfence, hsplit]
    exact ⟨.cons (standsFor_of_trim_eq (hg line) inFence) hlines, rfl⟩

/-- A comment is read without loss: written back it has the same lines, up to white space at their
ends and the hashes of headers, and is read as the same comment. -/
theorem ofLines_written (lines : List (List Char)) :
    (ofLines lines).written.length = lines.length ∧
    List.Forall₂ ReadLine.StandsFor (readLines false (ofLines lines).written)
      (readLines false lines) ∧
    ofLines (ofLines lines).written = ofLines lines := by
  obtain ⟨hlines, hsplit⟩ := split_written trim_trim false lines
  refine ⟨?_, hlines, ?_⟩
  · have hlength := hlines.length_eq
    rwa [length_readLines, length_readLines] at hlength
  · have htrim : ((split false lines).1.map trim).map trim = (split false lines).1.map trim := by
      simp [trim_trim]
    rw [ofLines, DocComment.written, ofLines]
    dsimp only
    rw [hsplit, htrim]

end Written

end DocComment

end ApiSurface
