import ApiSurface.CallGraph.Dot
import ApiSurface.Corpus
import ApiSurface.Proofs.CallGraph.DotReader
import ApiSurface.Proofs.CallGraph.Listing
import ApiSurface.Proofs.Shape.Source

namespace ApiSurface.CallGraph

open Text
open ApiSurface.Dot (Token Mode Scans Statement Drawing statement? drawing? attributes? isSemicolon)

/-- Each of the records was read from some source. -/
def AreParsed (records : List FunctionRecord) : Prop :=
  ∀ r ∈ records, ∃ source : SourceFile, r ∈ (parseSource source.path source.text.toList).records

/-- What there is to draw of a subgraph. -/
def Subgraph.drawing (index : CategoryIndex) (start : String) (g : Subgraph) : Drawing where
  nodes := g.nodes.map fun name => ⟨name, index.categoryOf name, name == start⟩
  edges := g.edges

/-- The drawing tells the nodes and the calls of the listing, in its order. -/
structure Listing.IsDrawn (listing : Listing) (d : Drawing) : Prop where
  nodes : d.nodes = listing.nodes.map fun node => ⟨node.name, node.category, node.isStart⟩
  edges : listing.edges.map listing.edgeNames? = d.edges.map some

section Names

/-- A backslash in front of each `mark`. -/
def behindBackslash (mark c : Char) : List Char := if c = mark then ['\\', c] else [c]

/-- Escaping the backslashes and after them the quotes escapes no character twice. -/
theorem flatMap_behindBackslash (s : List Char) :
    (s.flatMap (behindBackslash '\\')).flatMap (behindBackslash '"') = s.flatMap escapeChar := by
  rw [List.flatMap_assoc]
  congr 1
  funext c
  by_cases hb : c = '\\'
  · subst hb
    rfl
  · by_cases hq : c = '"' <;> simp [behindBackslash, escapeChar, hb, hq]

/-- Escaped characters do not end the quoted text that they stand in. -/
theorem scans_escaped (text s : List Char) :
    Scans (.quoted text) (s.flatMap escapeChar) [] (.quoted (text ++ s)) := by
  induction s generalizing text with
  | nil =>
    rw [List.append_nil]
    exact Scans.nil _
  | cons c s ih =>
    have hmore := ih (text ++ [c])
    rw [List.append_assoc] at hmore
    rw [List.flatMap_cons, escapeChar]
    split
    · rename_i hc
      have hstep : Dot.step (.escaped text) c = ([], .quoted (text ++ [c])) := if_pos hc
      exact Scans.cons rfl (Scans.cons hstep hmore)
    · rename_i hc
      rw [not_or] at hc
      have hstep : Dot.step (.quoted text) c = ([], .quoted (text ++ [c])) := by
        rw [Dot.step, if_neg hc.1, if_neg hc.2]
      exact Scans.cons hstep hmore

/-- No name breaks out of its quotes. -/
theorem scans_quotedChars (name : String) :
    Scans .between (quotedChars name) [.quoted name.toList] .between := by
  have hbody : Scans .between ('"' :: name.toList.flatMap escapeChar) [] (.quoted name.toList) :=
    Scans.cons rfl (scans_escaped [] name.toList)
  exact hbody.append rfl

theorem colorOf_mem (used : List String) (category : String) :
    colorOf used category ∈ otherColor :: palette := by
  unfold colorOf
  split
  · exact List.mem_cons_self
  · rw [List.getD_eq_getElem?_getD]
    cases h : palette[(used.filter (· ≠ otherCategory)).idxOf category % palette.length]? with
    | none => exact List.mem_cons_self
    | some color => exact List.mem_cons_of_mem _ (List.mem_of_getElem? h)

/-- Colours are words. -/
theorem colorOf_word (used : List String) (category : String) :
    (colorOf used category).toList ≠ [] ∧
      ∀ c ∈ (colorOf used category).toList, isWordChar c = true := by
  have hwords : ∀ color ∈ otherColor :: palette,
      color.toList ≠ [] ∧ ∀ c ∈ color.toList, isWordChar c = true := by decide
  exact hwords _ (colorOf_mem used category)

end Names

section Category

variable {records : List FunctionRecord}

/-- Records that were read have identifiers for owners, so a category is a line at most. -/
theorem AreParsed.category (h : AreParsed records) (method : String) :
    '\n' ∉ ((CategoryIndex.ofRecords records).categoryOf method).toList := by
  rw [categoryOf_ofRecords]
  cases hd : declaringType? records method with
  | none => decide
  | some owner =>
    obtain ⟨r, hr, ho⟩ := Option.bind_eq_some_iff.1 hd
    obtain ⟨source, hs⟩ := h r (List.mem_of_find?_eq_some hr)
    have hshape : (parseSource source.path source.text.toList).Regular :=
      Outcome.ofText_regular (by simp) (by simp)
    have hword := forall_isWordChar_of_isIdentifier (hshape.owners r hs owner ho)
    intro hm
    exact absurd (hword _ hm) (by decide)

end Category

namespace Subgraph

variable {index : CategoryIndex} {start : String} {used : List String}

def nodeTokens (index : CategoryIndex) (start : String) (used : List String) (name : String) :
    List Token :=
  .quoted name.toList :: .mark '[' ::
    ([.word "category".toList, .mark '=', .quoted (index.categoryOf name).toList, .mark ',',
        .word "fillcolor".toList, .mark '=', .word (colorOf used (index.categoryOf name)).toList] ++
      (if name = start then [.mark ',', .word "penwidth".toList, .mark '=', .word ['3'], .mark ',',
          .word "peripheries".toList, .mark '=', .word ['2']] else []) ++ [.mark ']'])

def edgeTokens (edge : String × String) : List Token :=
  [.quoted edge.1.toList, .mark '-', .mark '>', .quoted edge.2.toList]

theorem scans_legendLine {category : String} (h : '\n' ∉ category.toList) :
    Scans .between (legendLine used category) [] .between := by
  have hcolor : '\n' ∉ (colorOf used category).toList := fun hm =>
    absurd ((colorOf_word used category).2 _ hm) (by decide)
  have hline : '\n' ∉ category.toList ++ " = ".toList ++ (colorOf used category).toList := by
    simp only [List.mem_append, not_or]
    exact ⟨⟨h, by decide⟩, hcolor⟩
  have hmark : Scans .between "  // category ".toList [] .remark := rfl
  have hall := hmark.append (Scans.remark hline)
  change Scans .between ("  // category ".toList ++ category.toList ++ " = ".toList ++
    (colorOf used category).toList ++ ['\n']) [] .between
  simp only [List.append_assoc] at hall ⊢
  exact hall

theorem scans_nodeLine (name : String) : Scans .between (nodeLine index start used name)
    (nodeTokens index start used name ++ [.mark ';']) .between := by
  have hcolor := colorOf_word used (index.categoryOf name)
  have hblank : Scans .between "  ".toList [] .between := rfl
  have hcategory : Scans .between " [category=".toList
      [.mark '[', .word "category".toList, .mark '='] .between := rfl
  have hfill : Scans .between ", fillcolor=".toList
      [.mark ',', .word "fillcolor".toList, .mark '='] .between := rfl
  have hend (letters : List Char) : Scans (.word letters) "];\n".toList
      [.word letters, .mark ']', .mark ';'] .between := rfl
  have houtline (letters : List Char) : Scans (.word letters) ", penwidth=3, peripheries=2".toList
      [.word letters, .mark ',', .word "penwidth".toList, .mark '=', .word ['3'], .mark ',',
        .word "peripheries".toList, .mark '='] (.word ['2']) := rfl
  have hhead := (((hblank.append (scans_quotedChars name)).append hcategory).append
    (scans_quotedChars (index.categoryOf name))).append hfill
  have hword := hhead.append (Scans.word_of_between hcolor.1 hcolor.2)
  unfold nodeLine nodeTokens
  split
  · exact (hword.append (houtline _)).append (hend _)
  · exact (hword.append (Scans.nil _)).append (hend _)

theorem scans_edgeLine (edge : String × String) :
    Scans .between (edgeLine edge) (edgeTokens edge ++ [.mark ';']) .between := by
  have hblank : Scans .between "  ".toList [] .between := rfl
  have harrow : Scans .between " -> ".toList [.mark '-', .mark '>'] .between := rfl
  have hend : Scans .between ";\n".toList [.mark ';'] .between := rfl
  exact (((hblank.append (scans_quotedChars edge.1)).append harrow).append
    (scans_quotedChars edge.2)).append hend

/-- The tokens of the lines in front of the legend, from the brace on. -/
def settingTokens : List (List Token) :=
  [[.word "rankdir".toList, .mark '=', .word "LR".toList],
    [.word "node".toList, .mark '[', .word "shape".toList, .mark '=', .word "box".toList, .mark ',',
      .word "style".toList, .mark '=', .word "filled".toList, .mark ',', .word "fontname".toList,
      .mark '=', .quoted "JetBrains Mono".toList, .mark ']']]

/-- The statements of a subgraph, without the semicolons between them. -/
def statementTokens (index : CategoryIndex) (start : String) (g : Subgraph) : List (List Token) :=
  settingTokens ++ (g.nodes.map (nodeTokens index start (g.categories index)) ++
    g.edges.map edgeTokens)

theorem scans_legend {g : Subgraph}
    (hc : ∀ category ∈ g.categories index, '\n' ∉ category.toList) :
    Scans .between ((g.categories index).flatMap (legendLine (g.categories index))) [] .between := by
  have h : Scans .between ((g.categories index).flatMap (legendLine (g.categories index)))
      ((g.categories index).flatMap fun _ => []) .between :=
    Scans.flatMap fun category hm => scans_legendLine (hc category hm)
  rwa [List.flatMap_eq_nil_iff.2 fun _ _ => rfl] at h

theorem scans_dotChars {g : Subgraph}
    (hc : ∀ category ∈ g.categories index, '\n' ∉ category.toList) :
    Scans .between (g.dotChars index start) ([.word "digraph".toList, .word "reachable".toList,
      .mark '\x7b'] ++ ((g.statementTokens index start).flatMap (· ++ [.mark ';']) ++
        [.mark '\x7d'])) .between := by
  have hhead : Scans .between headLines ([.word "digraph".toList, .word "reachable".toList,
      .mark '\x7b'] ++ settingTokens.flatMap (· ++ [.mark ';'])) .between := by
    rw [Scans]
    decide +kernel
  have hfeed : Scans .between ['\n'] [] .between := rfl
  have hnodes : Scans .between (g.nodes.flatMap (nodeLine index start (g.categories index)))
      (g.nodes.flatMap fun name => nodeTokens index start (g.categories index) name ++ [.mark ';'])
      .between := Scans.flatMap fun name _ => scans_nodeLine name
  have hedges : Scans .between (g.edges.flatMap edgeLine)
      (g.edges.flatMap fun edge => edgeTokens edge ++ [.mark ';']) .between :=
    Scans.flatMap fun edge _ => scans_edgeLine edge
  have hend : Scans .between "\x7d\n".toList [.mark '\x7d'] .between := rfl
  have hall := (((((hhead.append (scans_legend hc)).append hfeed).append hnodes).append
    hfeed).append hedges).append hend
  change Scans .between (headLines ++ (g.categories index).flatMap (legendLine (g.categories index)) ++
    ['\n'] ++ g.nodes.flatMap (nodeLine index start (g.categories index)) ++ ['\n'] ++
    g.edges.flatMap edgeLine ++ "\x7d\n".toList) _ _
  rw [statementTokens]
  simp only [List.flatMap_append, List.flatMap_map, List.append_assoc, List.nil_append] at hall ⊢
  exact hall

/-- Statements with a semicolon after each are told apart at the semicolons. -/
theorem splitOnP_flatMap {l : List (List Token)} (h : ∀ s ∈ l, ∀ t ∈ s, isSemicolon t = false)
    (rest : List Token) : (l.flatMap (· ++ [Token.mark ';']) ++ rest).splitOnP isSemicolon =
      l ++ rest.splitOnP isSemicolon := by
  induction l with
  | nil => rfl
  | cons s l ih =>
    have hmore := ih fun s' hs => h s' (List.mem_cons_of_mem s hs)
    rw [List.flatMap_cons, List.append_assoc, List.append_assoc, List.singleton_append,
      List.splitOnP_append_cons_of_forall_mem (h s List.mem_cons_self) _ rfl, hmore]
    rfl

theorem not_isSemicolon {s : List Token} {g : Subgraph} (hs : s ∈ g.statementTokens index start) :
    ∀ t ∈ s, isSemicolon t = false := by
  rw [statementTokens, List.mem_append, List.mem_append] at hs
  rcases hs with hs | hs | hs
  · revert s
    decide
  · obtain ⟨name, -, rfl⟩ := List.mem_map.1 hs
    unfold nodeTokens
    split <;> simp [isSemicolon]
  · obtain ⟨edge, -, rfl⟩ := List.mem_map.1 hs
    simp [edgeTokens, isSemicolon]

theorem drawing?_cons {first : List Token} {rest : List (List Token)} {statement : Statement}
    {d : Drawing} (hf : statement? first = some statement) (hr : drawing? rest = some d) :
    drawing? (first :: rest) = some (d.add statement) := by
  rw [drawing?, hr, hf]
  · rfl
  · rintro rfl
    cases hf

theorem statement?_nodeTokens (name : String) : statement? (nodeTokens index start used name) =
    some (.node ⟨name, index.categoryOf name, name == start⟩) := by
  unfold nodeTokens
  by_cases hs : name = start
  · subst hs
    simp [statement?, attributes?, Token.text?, List.lookup_cons]
  · simp [hs, statement?, attributes?, Token.text?, List.lookup_cons]

/-- Nodes and edges in front of others are drawn in front of them. -/
theorem drawing?_statements (names : List String) (edges : List (String × String)) :
    drawing? (names.map (nodeTokens index start used) ++ (edges.map edgeTokens ++ [[.mark '\x7d']])) =
      some ⟨names.map fun name => ⟨name, index.categoryOf name, name == start⟩, edges⟩ := by
  have hedges : drawing? (edges.map edgeTokens ++ [[.mark '\x7d']]) = some ⟨[], edges⟩ := by
    induction edges with
    | nil => rfl
    | cons edge edges ih =>
      have hedge : statement? (edgeTokens edge) = some (.edge edge.1 edge.2) := by
        simp [edgeTokens, statement?]
      exact drawing?_cons hedge ih
  induction names with
  | nil => exact hedges
  | cons name names ih => exact drawing?_cons (statement?_nodeTokens name) ih

/-- Settings draw nothing. -/
theorem drawing?_settings {l rest : List (List Token)} {d : Drawing}
    (h : ∀ s ∈ l, statement? s = some .setting) (hr : drawing? rest = some d) :
    drawing? (l ++ rest) = some d := by
  induction l with
  | nil => exact hr
  | cons s l ih =>
    have hmore := ih fun s' hs => h s' (List.mem_cons_of_mem s hs)
    exact drawing?_cons (h s List.mem_cons_self) hmore

/-- The text of a subgraph with one-line categories is read as what there is to draw of it. -/
theorem read_dotChars {g : Subgraph}
    (hc : ∀ category ∈ g.categories index, '\n' ∉ category.toList) :
    Dot.read (g.dotChars index start) = some (g.drawing index start) := by
  have hbody : drawing? (g.statementTokens index start ++ [[.mark '\x7d']]) =
      some (g.drawing index start) := by
    rw [statementTokens, List.append_assoc, List.append_assoc]
    exact drawing?_settings (by decide) (drawing?_statements g.nodes g.edges)
  have hend : [Token.mark '\x7d'].splitOnP isSemicolon = [[.mark '\x7d']] := by decide
  have hsplit := splitOnP_flatMap (fun s (hs : s ∈ g.statementTokens index start) =>
    not_isSemicolon hs) [.mark '\x7d']
  rw [Dot.read, Dot.tokens?, scans_dotChars hc]
  change (if "digraph".toList = "digraph".toList then drawing? (List.splitOnP isSemicolon _) else none)
    = _
  rw [if_pos rfl]
  rw [hend] at hsplit
  exact (congrArg drawing? hsplit).trans hbody

end Subgraph

section Faithful

variable {sub : Subgraph} {index : CategoryIndex} {start : String}

/-- A listing tells of each node and each call what the drawing does. -/
theorem listing_isDrawn (he : ∀ edge ∈ sub.edges, edge.1 ∈ sub.nodes ∧ edge.2 ∈ sub.nodes) :
    (sub.listing index start).IsDrawn (sub.drawing index start) where
  nodes := by
    rw [Subgraph.drawing, Subgraph.listing, List.map_map]
    conv_lhs => rw [← List.zipIdx_map_fst 0 sub.nodes, List.map_map]
    rfl
  edges := map_edgeNames?_listing he

/-- What is drawn of a subgraph gives it back, with the category of each node and whether it is the
start. -/
theorem drawing_inj {sub' : Subgraph} {index' : CategoryIndex} {start' : String}
    (h : sub.drawing index start = sub'.drawing index' start') : sub = sub' ∧
      ∀ name ∈ sub.nodes, index.categoryOf name = index'.categoryOf name ∧
        (name = start ↔ name = start') := by
  obtain ⟨hnodes, hedges⟩ := Drawing.mk.inj h
  have hnames : sub.nodes = sub'.nodes := by
    have := congrArg (List.map Dot.Node.name) hnodes
    simpa [List.map_map, Function.comp_def] using this
  refine ⟨?_, fun name hm => ?_⟩
  · cases sub
    cases sub'
    congr
  · rw [← hnames] at hnodes
    have hnode := List.map_inj_left.1 hnodes name hm
    obtain ⟨-, hcategory, hstart⟩ := Dot.Node.mk.inj hnode
    rw [beq_eq_beq] at hstart
    exact ⟨hcategory, hstart⟩

end Faithful

/-- DOT text is faithful, whatever characters names have: it is read as the nodes in order, with their
categories and the start outlined, and the edges in order, just as they are listed; and it is the text
of no other subgraph. -/
theorem dotChars_faithful (g : CallGraph) (reachable : NameSet) (start : String)
    {records : List FunctionRecord} (hr : AreParsed records) :
    let index := CategoryIndex.ofRecords records
    let sub := g.subgraph reachable
    Dot.read (sub.dotChars index start) = some (sub.drawing index start) ∧
      (sub.listing index start).IsDrawn (sub.drawing index start) ∧
      ∀ (g' : CallGraph) (reachable' : NameSet) (start' : String) (records' : List FunctionRecord),
        AreParsed records' → sub.dotChars index start =
          (g'.subgraph reachable').dotChars (.ofRecords records') start' →
        sub = g'.subgraph reachable' ∧ ∀ name ∈ reachable.toList,
          index.categoryOf name = (CategoryIndex.ofRecords records').categoryOf name ∧
            (name = start ↔ name = start') := by
  have hread (g : CallGraph) (reachable : NameSet) (start : String)
      {records : List FunctionRecord} (hr : AreParsed records) :
      Dot.read ((g.subgraph reachable).dotChars (.ofRecords records) start) =
        some ((g.subgraph reachable).drawing (.ofRecords records) start) := by
    refine Subgraph.read_dotChars fun category hc => ?_
    obtain ⟨name, -, rfl⟩ := List.mem_map.1 ((NameSet.mem_toList_ofList _).1 hc)
    exact hr.category name
  refine ⟨hread g reachable start hr, listing_isDrawn fun edge he => ?_, ?_⟩
  · obtain ⟨hcaller, -, hcallee⟩ := mem_edges_subgraph_iff.1 he
    exact ⟨hcaller, hcallee⟩
  · intro g' reachable' start' records' hr' htext
    have hsame := (hread g reachable start hr).symm.trans
      ((congrArg Dot.read htext).trans (hread g' reachable' start' hr'))
    exact drawing_inj (Option.some.inj hsame)

theorem dotChars_faithful_quotes :
    let records := (parseSource "log.rs" "impl Log \x7b fn end() \x7b\x7d \x7d".toList).records
    let g : CallGraph := ⟨.ofList [("end", .ofList ["say \"no\\\";\n\x7d", "end"])]⟩
    AreParsed records ∧ Dot.read
      ((g.subgraph (.ofList ["end", "say \"no\\\";\n\x7d"])).dotChars (.ofRecords records) "end") =
        some ⟨[⟨"end", "Log", true⟩, ⟨"say \"no\\\";\n\x7d", "other", false⟩],
          [("end", "end"), ("end", "say \"no\\\";\n\x7d")]⟩ := by
  have hparsed : AreParsed
      (parseSource "log.rs" "impl Log \x7b fn end() \x7b\x7d \x7d".toList).records :=
    fun r hr => ⟨⟨"log.rs", "impl Log \x7b fn end() \x7b\x7d \x7d"⟩, hr⟩
  refine ⟨hparsed, (dotChars_faithful _ _ _ hparsed).1.trans ?_⟩
  decide +kernel

end ApiSurface.CallGraph
