import ApiSurface.Doc.Finding
import ApiSurface.Proofs.Doc.Argument
import ApiSurface.Proofs.Doc.Comment

namespace ApiSurface

open Text

/-- The line that documents an argument. -/
def argumentLine (name text : String) : String := "* `" ++ name ++ "`: " ++ text

/-- A line behind these ones stands under the first header called `title`: that header is the last
one above it. -/
def EndsUnder (title : String) (lines : List (List Char)) : Prop :=
  ∃ earlier last, (readLines false lines).filterMap ReadLine.title? = earlier ++ [last] ∧
    sameIgnoringCase last title.toList = true ∧
    ∀ t ∈ earlier, sameIgnoringCase t title.toList = false

/-- The second comment has one more line in its first section called `title`. -/
inductive AddsLine (title : String) (line : List Char) : DocComment → DocComment → Prop
  | mk {description : List (List Char)} {earlier later : List Section} {name : List Char}
      {above below : List (List Char)} (named : sameIgnoringCase name title.toList = true)
      (first : ∀ s ∈ earlier, sameIgnoringCase s.title title.toList = false) :
      AddsLine title line ⟨description, earlier ++ ⟨name, above ++ below⟩ :: later⟩
        ⟨description, earlier ++ ⟨name, above ++ line :: below⟩ :: later⟩

namespace DocComment

/-- What is missing of the description and the example. -/
def generalFindings (d : DocComment) (method : String) : List Finding :=
  (if d.hasDescription then [] else [.missingDescription]) ++ d.exampleFindings method

def findingsOf (d : DocComment) (arguments : List String) : List Finding :=
  if arguments.isEmpty then [] else d.argumentFindings arguments

/-- What is missing of the sections that only some functions need. -/
def hazardFindings (d : DocComment) (s : Signature) : List Finding :=
  (if s.isUnsafe && (d.section? "Safety").isNone then [.missingSafetySection] else []) ++
  (if s.returnsResult && (d.section? "Raises").isNone then [.missingRaisesSection] else [])

end DocComment

section Line

variable {name text title : String} {line : List Char}

/-- A bullet begins no fence and no header. -/
theorem plain_of_bullet (hb : (trim line).head?.any isBullet = true) :
    isFence line = false ∧ headerTitle? line = none := by
  rw [isFence_eq_startsWith_trim, headerTitle?]
  cases hline : trim line with
  | nil =>
    rw [hline] at hb
    cases hb
  | cons c rest =>
    rw [hline, List.head?_cons, Option.any_some, isBullet, Bool.or_eq_true, beq_iff_eq,
      beq_iff_eq] at hb
    rcases hb with rfl | rfl <;> exact ⟨rfl, rfl⟩

theorem isWrittenAs_argumentLine (hname : isIdentifier name.toList = true)
    (htext : isBlankText text.toList = false) (hline : '\n' ∉ text.toList) :
    (⟨name.toList, trim text.toList⟩ : ArgumentEntry).IsWrittenAs
      (trim (argumentLine name text).toList) := by
  obtain ⟨front, back, hfront, hback, hsplit⟩ := exists_trim_append text.toList
  have hne : trim text.toList ≠ [] := by
    rw [ne_eq, trim_eq_nil_iff, htext]
    exact Bool.false_ne_true
  have hbullet : IsTight ['*'] := IsTight.of_forall (List.cons_ne_nil _ _) (by decide)
  have hchars : (argumentLine name text).toList = ['*'] ++ (" `".toList ++ name.toList ++
      "`: ".toList ++ front) ++ trim text.toList ++ back := by
    rw [argumentLine, String.toList_append, String.toList_append, String.toList_append]
    conv_lhs => rw [hsplit]
    simp
  have hlead : isBlankText (' ' :: front) = true := by
    rw [isBlankText, List.all_cons, Bool.and_eq_true]
    exact ⟨by decide, hfront⟩
  have honeLine : '\n' ∉ trim text.toList := by
    intro hm
    rw [hsplit] at hline
    exact hline (List.mem_append_right _ (List.mem_append_left _ hm))
  have hwritten := @ArgumentEntry.IsWrittenAs.mk '*' [' '] "`".toList name.toList "`".toList []
    (' ' :: front) (trim text.toList) rfl (by decide) (.inr rfl) hname (.inr rfl) rfl hlead honeLine
  rw [trim_trim] at hwritten
  rw [hchars, trim_append_blank hback, (hbullet.between _ (isTight_trim hne)).trim]
  simpa using hwritten

end Line

section Adds

variable {title : String} {line : List Char} {d d' : DocComment}

theorem AddsLine.of_endsUnder {above : List (List Char)} (h : EndsUnder title above)
    (hfence : isFence line = false) (hheader : headerTitle? line = none)
    (below : List (List Char)) : AddsLine title (trimEnd line) (.ofLines (above ++ below))
      (.ofLines (above ++ line :: below)) := by
  obtain ⟨titles, name, hread, hname, hfirst⟩ := h
  rw [← DocComment.map_title_split] at hread
  obtain ⟨earlier, sections, hsections, rfl, hlast⟩ := List.map_eq_append_iff.1 hread
  obtain ⟨last, rfl, rfl⟩ := List.map_eq_singleton_iff.1 hlast
  have hplain : ∀ inFence, titleAt? inFence line = none := by
    intro inFence
    cases inFence
    · exact hheader
    · rfl
  rw [DocComment.ofLines, DocComment.ofLines, DocComment.split_append_of_concat hsections,
    DocComment.split_append_of_concat hsections, DocComment.split_plain (hplain _), hfence,
    Bool.bne_false]
  exact .mk hname fun s hs => hfirst s.title (List.mem_map_of_mem hs)

namespace AddsLine

theorem hasDescription (h : AddsLine title line d d') : d'.hasDescription = d.hasDescription := by
  cases h
  rfl

theorem isEmpty (h : AddsLine title line d d') : d.isEmpty = false ∧ d'.isEmpty = false := by
  cases h
  simp [DocComment.isEmpty]

theorem section?_eq (h : AddsLine title line d d') : ∃ name above below,
    d.section? title = some ⟨name, above ++ below⟩ ∧
      d'.section? title = some ⟨name, above ++ line :: below⟩ := by
  cases h with
  | @mk description earlier later name above below named first =>
    have hnone : earlier.find? (fun s => sameIgnoringCase s.title title.toList) = none := by
      rw [List.find?_eq_none]
      intro s hs
      rw [first s hs]
      exact Bool.false_ne_true
    refine ⟨name, above, below, ?_, ?_⟩
    · rw [DocComment.section?, List.find?_append, hnone, Option.none_or]
      exact List.find?_cons_of_pos named
    · rw [DocComment.section?, List.find?_append, hnone, Option.none_or]
      exact List.find?_cons_of_pos named

/-- Sections of other titles are found as before. -/
theorem section?_of_ne (h : AddsLine title line d d') {other : String}
    (hne : sameIgnoringCase title.toList other.toList = false) :
    d'.section? other = d.section? other := by
  cases h with
  | @mk description earlier later name above below named first =>
    have hother : ¬sameIgnoringCase name other.toList = true := by
      rw [sameIgnoringCase, beq_iff_eq.1 named, ← sameIgnoringCase, hne]
      exact Bool.false_ne_true
    have hskip : ∀ lines, (⟨name, lines⟩ :: later : List Section).find?
        (fun s => sameIgnoringCase s.title other.toList) =
          later.find? fun s => sameIgnoringCase s.title other.toList :=
      fun lines => List.find?_cons_of_neg hother
    rw [DocComment.section?, DocComment.section?, List.find?_append, List.find?_append, hskip,
      hskip]

theorem example?_eq (h : AddsLine "Arguments" line d d') : d'.example? = d.example? := by
  rw [DocComment.example?, h.section?_of_ne (by decide), h.section?_of_ne (by decide),
    DocComment.example?]

theorem argumentLines_eq (h : AddsLine "Arguments" line d d')
    (hb : (trim line).head?.any isBullet = true) : ∃ before after,
    d.argumentLines = before ++ after ∧ d'.argumentLines = before ++ trim line :: after := by
  obtain ⟨name, above, below, hd, hd'⟩ := h.section?_eq
  refine ⟨bulletLines (above.map trim), bulletLines (below.map trim), ?_, ?_⟩
  · rw [DocComment.argumentLines_eq, DocComment.argumentSection, hd]
    simp [bulletLines]
  · rw [DocComment.argumentLines_eq, DocComment.argumentSection, hd']
    simp [bulletLines, hb]

variable {e : ArgumentEntry}

theorem argumentEntries_eq (h : AddsLine "Arguments" line d d') (he : e.IsWrittenAs (trim line)) :
    (∃ before after, d.argumentEntries = before ++ after ∧
      d'.argumentEntries = before ++ e :: after) ∧
    d'.malformedArguments = d.malformedArguments := by
  have hread := he.ofBullet?
  obtain ⟨before, after, hd, hd'⟩ := h.argumentLines_eq he.starts
  constructor
  · refine ⟨before.filterMap ArgumentEntry.ofBullet?, after.filterMap ArgumentEntry.ofBullet?,
      ?_, ?_⟩
    · rw [DocComment.argumentEntries, hd, List.filterMap_append]
    · rw [DocComment.argumentEntries, hd', List.filterMap_append, List.filterMap_cons_some hread]
  · rw [DocComment.malformedArguments, DocComment.malformedArguments, hd, hd', List.filter_append,
      List.filter_append, List.filter_cons_of_neg (by simp [hread])]

end AddsLine

end Adds

section Findings

variable {line : List Char} {d d' : DocComment} {e : ArgumentEntry} {name : String}

theorem filter_ne_missing {findings : List Finding} (h : .missingArgumentDoc name ∉ findings) :
    findings.filter (· ≠ .missingArgumentDoc name) = findings := by
  rw [List.filter_eq_self]
  intro f hf
  rw [decide_eq_true_iff]
  exact ne_of_mem_of_not_mem hf h

theorem AddsLine.isDocumented (h : AddsLine "Arguments" line d d') (he : e.IsWrittenAs (trim line))
    (hname : e.name = name.toList) (a : String) :
    d'.isDocumented a = (d.isDocumented a || a == name) := by
  obtain ⟨⟨before, after, hd, hd'⟩, -⟩ := h.argumentEntries_eq he
  have hsame : (name.toList == a.toList) = (a == name) := by
    rw [Bool.eq_iff_iff, beq_iff_eq, beq_iff_eq, String.toList_inj, eq_comm]
  rw [DocComment.isDocumented, DocComment.isDocumented, hd, hd', List.any_append, List.any_append,
    List.any_cons, hname, hsame, Bool.or_assoc, Bool.or_comm (a == name)]

/-- One more entry takes away what was missing about its name, and it is not empty itself. -/
theorem AddsLine.argumentFindings (h : AddsLine "Arguments" line d d')
    (he : e.IsWrittenAs (trim line)) (hname : e.name = name.toList) (hne : e.description ≠ [])
    (arguments : List String) : d'.argumentFindings arguments =
      (d.argumentFindings arguments).filter (· ≠ .missingArgumentDoc name) := by
  obtain ⟨⟨before, after, hd, hd'⟩, hmalformed⟩ := h.argumentEntries_eq he
  obtain ⟨_, _, _, hsection, hsection'⟩ := h.section?_eq
  have hmissing : (arguments.filter (!d'.isDocumented ·)).map Finding.missingArgumentDoc =
      ((arguments.filter (!d.isDocumented ·)).map Finding.missingArgumentDoc).filter
        (· ≠ .missingArgumentDoc name) := by
    rw [List.filter_map, List.filter_filter]
    refine congrArg _ (List.filter_congr fun a _ => ?_)
    simp [h.isDocumented he hname, Bool.and_comm, beq_eq_decide]
  have hempty : d'.argumentEntries.filter (fun entry =>
        entry.description.isEmpty && arguments.contains (String.ofList entry.name)) =
      d.argumentEntries.filter fun entry =>
        entry.description.isEmpty && arguments.contains (String.ofList entry.name) := by
    rw [hd, hd', List.filter_append, List.filter_append, List.filter_cons_of_neg (by simp [hne])]
  rw [DocComment.argumentFindings, DocComment.argumentFindings, hsection, hsection', hmissing,
    hempty, hmalformed]
  simp [List.filter_map, Function.comp_def]

theorem AddsLine.generalFindings (h : AddsLine "Arguments" line d d') (method : String) :
    d'.generalFindings method = d.generalFindings method := by
  rw [DocComment.generalFindings, DocComment.generalFindings, DocComment.exampleFindings,
    DocComment.exampleFindings, h.hasDescription, h.example?_eq]

theorem AddsLine.hazardFindings (h : AddsLine "Arguments" line d d') (s : Signature) :
    d'.hazardFindings s = d.hazardFindings s := by
  rw [DocComment.hazardFindings, DocComment.hazardFindings, h.section?_of_ne (by decide),
    h.section?_of_ne (by decide)]

theorem not_mem_generalFindings (d : DocComment) (method : String) :
    .missingArgumentDoc name ∉ d.generalFindings method := by
  rw [DocComment.generalFindings, DocComment.exampleFindings, List.mem_append, not_or]
  constructor
  · split <;> simp
  · split
    · simp
    · split
      · simp
      · split <;> simp

theorem not_mem_hazardFindings (d : DocComment) (s : Signature) :
    .missingArgumentDoc name ∉ d.hazardFindings s := by
  rw [DocComment.hazardFindings, List.mem_append, not_or]
  constructor <;> split <;> simp

theorem mem_of_mem_argumentFindings {arguments : List String}
    (h : .missingArgumentDoc name ∈ d.argumentFindings arguments) : name ∈ arguments := by
  rw [DocComment.argumentFindings] at h
  simp only [List.mem_append, List.mem_map, reduceCtorEq, and_false, exists_false, or_false,
    Finding.missingArgumentDoc.injEq, List.mem_filter] at h
  rcases h with h | ⟨_, ⟨hmem, -⟩, rfl⟩
  · split at h <;> simp at h
  · exact hmem

/-- What is found about a function with some documentation: what its arguments lack stands between
findings that are about no argument. -/
theorem findings_of_isEmpty {r : FunctionRecord} (h : r.docComment.isEmpty = false) : r.findings =
    r.docComment.generalFindings r.name ++
      (r.docComment.findingsOf r.signature.argumentNames ++
        r.docComment.hazardFindings r.signature) := by
  rw [FunctionRecord.findings, h]
  simp [DocComment.generalFindings, DocComment.hazardFindings, DocComment.findingsOf]

/-- Only arguments can be missing. -/
theorem mem_argumentNames_of_mem_findings {r : FunctionRecord}
    (h : .missingArgumentDoc name ∈ r.findings) : name ∈ r.signature.argumentNames := by
  cases hempty : r.docComment.isEmpty with
  | true =>
    rw [FunctionRecord.findings, hempty] at h
    simp at h
  | false =>
    rw [findings_of_isEmpty hempty, List.mem_append, List.mem_append] at h
    rcases h with h | h | h
    · exact absurd h (not_mem_generalFindings _ _)
    · rw [DocComment.findingsOf] at h
      split at h
      · cases h
      · exact mem_of_mem_argumentFindings h
    · exact absurd h (not_mem_hazardFindings _ _)

end Findings

/-- A line that documents an argument takes away what was missing about it, and changes no other
finding. -/
theorem FunctionRecord.findings_documented (r : FunctionRecord) (above below : List String)
    (name text : String) (hlines : r.docLines = above ++ below)
    (hunder : EndsUnder "Arguments" (above.map String.toList))
    (hname : isIdentifier name.toList = true) (htext : isBlankText text.toList = false)
    (hline : '\n' ∉ text.toList) :
    let documented := { r with docLines := above ++ argumentLine name text :: below }
    documented.findings = r.findings.filter (· ≠ .missingArgumentDoc name) ∧
      (name ∉ r.signature.argumentNames → documented.findings = r.findings) := by
  intro documented
  have hwritten := isWrittenAs_argumentLine hname htext hline
  obtain ⟨hfence, hheader⟩ := plain_of_bullet hwritten.starts
  have hadds : AddsLine "Arguments" (trimEnd (argumentLine name text).toList) r.docComment
      documented.docComment := by
    have h := AddsLine.of_endsUnder hunder hfence hheader (below.map String.toList)
    rw [FunctionRecord.docComment, FunctionRecord.docComment, hlines, List.map_append,
      List.map_append, List.map_cons]
    exact h
  have hentry : (⟨name.toList, trim text.toList⟩ : ArgumentEntry).IsWrittenAs
      (trim (trimEnd (argumentLine name text).toList)) := by rwa [trim_trimEnd]
  have hne : trim text.toList ≠ [] := by
    rw [ne_eq, trim_eq_nil_iff, htext]
    exact Bool.false_ne_true
  have hfindings : documented.findings = r.findings.filter (· ≠ .missingArgumentDoc name) := by
    obtain ⟨hempty, hempty'⟩ := hadds.isEmpty
    have harguments : documented.docComment.findingsOf documented.signature.argumentNames =
        (r.docComment.findingsOf r.signature.argumentNames).filter
          (· ≠ .missingArgumentDoc name) := by
      rw [DocComment.findingsOf, DocComment.findingsOf, hadds.argumentFindings hentry rfl hne]
      split <;> rfl
    rw [findings_of_isEmpty hempty, findings_of_isEmpty hempty', List.filter_append,
      List.filter_append, filter_ne_missing (not_mem_generalFindings _ _),
      filter_ne_missing (not_mem_hazardFindings _ _), ← harguments, hadds.generalFindings,
      hadds.hazardFindings]
    rfl
  refine ⟨hfindings, fun hn => ?_⟩
  rw [hfindings]
  exact filter_ne_missing fun h => hn (mem_argumentNames_of_mem_findings h)

theorem FunctionRecord.findings_documented_inFence :
    let above := [" Finds the edge.", " # arguments", " * `src`:", " ```", " # Raises"]
    let below := ["* oops", " ```", " # Arguments", " * dst: late"]
    let edge (docLines : List String) : FunctionRecord :=
      ⟨⟨"edge", "pub", [], [], [.typed "src" (.named "Node" []), .typed "dst" (.named "Node" [])],
        none⟩, docLines, "", some "Graph", "graph.rs", 2⟩
    (edge (above ++ below)).findings = [.missingExampleHeader, .missingArgumentDoc "dst",
        .emptyArgumentDescription "src", .malformedArgumentEntry "* oops"] ∧
      (edge (above ++ argumentLine "dst" "Target node." :: below)).findings =
        [.missingExampleHeader, .emptyArgumentDescription "src", .malformedArgumentEntry "* oops"] ∧
      (edge (above ++ argumentLine "extra" "No parameter." :: below)).findings =
        (edge (above ++ below)).findings := by
  intro above below edge
  have hunder : EndsUnder "Arguments" (above.map String.toList) :=
    ⟨[], "arguments".toList, by decide +kernel, by decide, by simp⟩
  have hfindings : (edge (above ++ below)).findings = [.missingExampleHeader,
      .missingArgumentDoc "dst", .emptyArgumentDescription "src",
      .malformedArgumentEntry "* oops"] := by decide +kernel
  refine ⟨hfindings, ?_, ?_⟩
  · have h := (FunctionRecord.findings_documented (edge (above ++ below)) above below "dst"
      "Target node." rfl hunder (by decide) (by decide) (by decide)).1
    rw [hfindings] at h
    exact h
  · exact (FunctionRecord.findings_documented (edge (above ++ below)) above below "extra"
      "No parameter." rfl hunder (by decide) (by decide) (by decide)).2 (by decide)

end ApiSurface
