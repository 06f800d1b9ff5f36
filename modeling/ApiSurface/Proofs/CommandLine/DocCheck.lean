import ApiSurface.Proofs.Artifact.Store
import ApiSurface.Proofs.CommandLine.Run
import ApiSurface.Proofs.FileTree.Frame
import ApiSurface.Proofs.Source.Spans

namespace ApiSurface.CommandLine

open FileTree Text

section Request

variable {arguments : List String} {o o' : Options}

/-- A run has options that do not exclude each other. -/
theorem checked_of_readArguments (h : readArguments o arguments = .ok (.run o')) :
    o'.checked = .ok o' := by
  have hchecked {o : Options} (h : o.checked.map Request.run = .ok (.run o')) :
      o'.checked = .ok o' := by
    obtain ⟨o₁, ho, he⟩ := map_eq_ok_iff.1 h
    obtain rfl := Request.run.inj he
    obtain rfl : o = o₁ := by
      unfold Options.checked at ho
      split at ho
      · cases ho
      · split at ho
        · cases ho
        · exact Except.ok.inj ho
    exact ho
  fun_induction readArguments o arguments with
  | case1 => exact hchecked h
  | case2 _ _ _ _ _ _ _ ih => exact ih h
  | case4 | case5 =>
    split at h
    · exact hchecked h
    · cases h
  | case12 _ _ _ _ _ _ _ _ _ _ _ _ _ ih => exact ih h
  | case3 | case6 | case7 | case8 | case9 | case10 | case11 | case13 => cases h

theorem no_query_of_checkDocs (h : request arguments = .ok (.run o)) (hc : o.checkDocs = true) :
    o.reachable = none ∧ o.deps = [] := by
  have hchecked := checked_of_readArguments h
  unfold Options.checked at hchecked
  split at hchecked
  · cases hchecked
  · rename_i hdeps
    split at hchecked
    · cases hchecked
    · rename_i hreachable
      simp only [hc, true_and] at hdeps hreachable
      exact ⟨by simpa using hreachable, by simpa using hdeps⟩

end Request

theorem mem_mergeLists_iff {item : String} {given configured : List String} :
    item ∈ mergeLists given configured ↔ item ∈ given ∨ item ∈ configured := by
  rw [mergeLists]
  induction configured generalizing given with
  | nil => simp
  | cons first configured ih =>
    rw [List.foldl_cons, ih, List.mem_cons]
    split
    · rename_i hfirst
      have hmem : first ∈ given := List.contains_iff_mem.1 hfirst
      constructor
      · rintro (h | h)
        · exact .inl h
        · exact .inr (.inr h)
      · rintro (h | rfl | h)
        · exact .inl h
        · exact .inl hmem
        · exact .inr h
    · simp [or_assoc]

/-- What a project read from a tree consists of: the settings at its root, and all sources found
below the path, less what is excluded on the command line or in the settings. -/
structure Project.IsRead (p : Project) (o : Options) (tree : FileTree) (here : List String) :
    Prop where
  there : tree.pathExists (o.path.getD ".") here = true
  root : p.root = configRoot tree (o.path.getD ".") here
  config : ∃ config?, tree.loadConfig p.root here = .ok config? ∧ p.config = config?.getD .empty
  sources : ∃ paths, tree.readSources paths here = .ok p.sources ∧
    tree.sourcePaths (mergeLists o.exclude p.config.excluded) (o.path.getD ".") here = some paths
  outcome : p.outcome = Corpus.parse p.sources

theorem Project.IsRead.read {p : Project} {o : Options} {tree : FileTree} {here : List String}
    (h : p.IsRead o tree here) : Project.read o tree here = .ok p := by
  obtain ⟨config?, hconfig, hp⟩ := h.config
  obtain ⟨paths, hsources, hpaths⟩ := h.sources
  rw [h.root] at hconfig
  rw [hp] at hpaths
  unfold Project.read
  dsimp only
  rw [if_pos h.there]
  refine bind_eq_ok_iff.2 ⟨config?, mapError_eq_ok_iff.2 hconfig, ?_⟩
  rw [hpaths]
  refine bind_eq_ok_iff.2 ⟨p.sources, mapError_eq_ok_iff.2 hsources, ?_⟩
  rw [← hp, ← h.root, ← h.outcome]
  rfl

/-- A line that a report cannot have read is a line of one of the sources. -/
theorem exists_of_mem_diagnostics {sources : List SourceFile} {d : Diagnostic}
    (h : d ∈ (Corpus.parse sources).diagnostics) :
    ∃ source ∈ sources, d.line ≤ 1 + source.text.length := by
  induction sources with
  | nil => cases h
  | cons source sources ih =>
    obtain h | h := List.mem_append.1 h
    · have hline := (Outcome.areLines_ofText.within _ (List.mem_map_of_mem h)).2
      have hfeeds : lineFeeds source.text.toList ≤ source.text.toList.length := List.count_le_length
      exact ⟨source, .head _, hline.trans (Nat.add_le_add_left hfeeds 1)⟩
    · obtain ⟨source, hs, hline⟩ := ih h
      exact ⟨source, .tail _ hs, hline⟩

/-- A documentation check that goes all the way: the project is read, the kinds and paths it names
pass, and what is to be written can be written and is small enough to be loaded. -/
structure PassesDocCheck (o : Options) (p : Project) (stamp : String) (here : List String)
    (tree dumped : FileTree) : Prop where
  checks : o.checkDocs = true
  read : p.IsRead o tree here
  dump : Dumped o p stamp here tree dumped
  kinds : ∀ kind, kind ∈ o.suppress ∨ kind ∈ p.config.suppressed → Finding.isKindName kind = true
  below : RequestsBelow o p
  saves : ∀ path, artifactTarget? o p (docReport o p) = some path → ∃ saved,
    dumped.saveDocFindings path (.ofReport (Corpus.digest p.sources) (docReport o p)) stamp here =
      (saved, .ok ())
  small : (artifactTarget? o p (docReport o p)).isSome = true →
    (DocArtifact.ofReport (Corpus.digest p.sources) (docReport o p)).encode.render.utf8ByteSize ≤
      artifactLimit
  /-- No text is longer than memory can be. -/
  short : ∀ source ∈ p.sources, source.text.length < 2 ^ 63

namespace PassesDocCheck

variable {o : Options} {p : Project} {stamp path : String} {here : List String}
  {tree dumped saved : FileTree}

theorem unknownKind_eq_none (h : PassesDocCheck o p stamp here tree dumped) :
    Config.unknownKind? "" (docRules o p.config).suppressed = none := by
  rw [Config.unknownKind?, Option.map_eq_none_iff, List.find?_eq_none]
  intro kind hkind
  rw [h.kinds kind (mem_mergeLists_iff.1 hkind)]
  decide

/-- What is saved is loaded again. -/
theorem load_saved (h : PassesDocCheck o p stamp here tree dumped)
    (hpath : artifactTarget? o p (docReport o p) = some path)
    (hsave : dumped.saveDocFindings path (.ofReport (Corpus.digest p.sources) (docReport o p)) stamp
      here = (saved, .ok ())) :
    saved.loadDocFindings path here = .ok (.ofReport (Corpus.digest p.sources) (docReport o p)) := by
  have hlines : (DocArtifact.ofReport (Corpus.digest p.sources) (docReport o p)).HasWordLines := by
    intro d hd
    have hmem : d ∈ (Corpus.parse p.sources).diagnostics :=
      h.read.outcome ▸ (List.mem_filter.1 hd).1
    obtain ⟨source, hs, hline⟩ := exists_of_mem_diagnostics hmem
    have hshort := h.short source hs
    omega
  exact loadArtifact_writeAtomic (DocArtifact.decode_undoes hlines) (DocArtifact.isWritten_encode hlines)
    (h.small (hpath ▸ rfl)) ((DocArtifact.depth_encode_le _).trans (by decide)) hsave

/-- The end of a run that goes all the way: the exit code, and the files that are left. -/
theorem leaves_run (h : PassesDocCheck o p stamp here tree dumped)
    (hq : o.reachable = none ∧ o.deps = []) :
    Leaves (run o stamp here) tree fun r after =>
      r = .ok (docReport o p).exitCode ∧
        match artifactTarget? o p (docReport o p) with
        | none => after = dumped
        | some path => dumped.saveDocFindings path
            (.ofReport (Corpus.digest p.sources) (docReport o p)) stamp here = (after, .ok ()) := by
  refine leaves_files_bind (leaves_orStop_bind (fun p' hp => ?_) fun stop hstop => ?_)
  · obtain rfl := Except.ok.inj (h.read.read.symm.trans hp)
    have hdump := h.dump
    unfold Dumped at hdump
    refine leaves_bind (leaves_dumpRecords (fun dumped' hd => ?_) ?_ ?_)
    · obtain rfl := hd.unique h.dump
      dsimp only
      rw [if_neg (mt asksQuery_iff.1 (not_not_intro hq)), if_pos h.checks]
      apply leaves_checkDocs
      case hkind =>
        intro problem hproblem
        cases h.unknownKind_eq_none.symm.trans hproblem
      case hrefused => exact fun file _ _ hfile hbelow => absurd (h.below file hfile) hbelow
      case hnone =>
        intro hpath _
        rw [hpath]
        exact ⟨rfl, rfl⟩
      case hsaved =>
        intro path saved hpath _ hsave
        rw [hpath]
        exact ⟨rfl, hsave⟩
      case hfailed =>
        intro path after fault message hpath _ hsave
        obtain ⟨saved, hsaved⟩ := h.saves path hpath
        cases (Prod.mk.inj (hsaved.symm.trans hsave)).2
    · intro file error hfile hbelow
      rw [hfile] at hdump
      exact absurd hdump.1 hbelow
    · intro file after fault message hfile _ hsave
      rw [hfile] at hdump
      cases (Prod.mk.inj (hdump.2.symm.trans hsave)).2
  · cases h.read.read.symm.trans hstop

end PassesDocCheck

/-- A documentation check checks what was read under the rules of the command line and the settings
together; it ends with zero exactly for a report that is clean. The findings are written if a file is
named for them, on the command line or else in the settings, or if the report is not clean; they are
written to that file only and are loaded from it as they were reported. -/
theorem perform_checkDocs {arguments : List String} {o : Options} {p : Project} {stamp : String}
    {here : List String} {tree dumped : FileTree} (ho : request arguments = .ok (.run o))
    (h : PassesDocCheck o p stamp here tree dumped) :
    ∃ ending, perform arguments tree stamp here = .ok ending ∧
      let rules := docRules o p.config
      let report := rules.checkOutcome p.outcome
      rules.targetType = (o.targetType.or p.config.targetType?).getD "Graph" ∧
      (∀ kind, kind ∈ rules.suppressed ↔ kind ∈ o.suppress ∨ kind ∈ p.config.suppressed) ∧
      (∀ name, name ∈ rules.ignored ↔ name ∈ o.ignore ∨ name ∈ p.config.ignored) ∧
      ending.exitCode = (if report.isClean then 0 else 1) ∧
      match (o.artifact.or (p.config.artifact?.map (Path.join p.root))).or
        (if report.isClean then none else some "doc_findings.json") with
      | none => ending.tree = dumped
      | some path => ∃ place, ending.tree.locate path here = .ok place ∧
        Frame (· = place) (IsTemporary stamp) dumped ending.tree ∧
        ending.tree.loadDocFindings path here =
          .ok ⟨Corpus.digest p.sources, rules.targetType, report.findings, report.unparsed⟩ := by
  have hleaves := h.leaves_run (no_query_of_checkDocs ho h.checks)
  obtain ⟨r, ⟨rfl, hwritten⟩, hcode⟩ := exists_of_leaves hleaves
  refine ⟨o.execute tree stamp here, by rw [perform, ho]; rfl, rfl, fun kind => mem_mergeLists_iff,
    fun name => mem_mergeLists_iff, hcode, ?_⟩
  change match artifactTarget? o p (docReport o p) with | none => _ | some path => _
  cases hpath : artifactTarget? o p (docReport o p) with
  | none =>
    rw [hpath] at hwritten
    exact hwritten
  | some path =>
    rw [hpath] at hwritten
    obtain ⟨place, hplace, -⟩ := bind_eq_ok_iff.1 (read_writeAtomic hwritten)
    have hframe := (frame_writeAtomic hwritten).mono_may fun other hother =>
      Except.ok.inj (hother.2.symm.trans hplace)
    exact ⟨place, hplace, hframe, h.load_saved hpath hwritten⟩

/-- One function without documentation, and settings that name its type. -/
def undocumentedFiles : FileTree :=
  .dir [("w", .dir
    [("siglint.toml", .file (.ofText "[docs]\ntarget_type = \"S\"\nignore = [\"get\"]\n")),
      ("a.rs", .file (.ofText "impl S \x7b pub fn put() \x7b\x7d \x7d"))])]

def undocumentedOptions : Options :=
  { Options.empty with checkDocs := true, suppress := ["MissingExampleHeader"] }

def undocumentedProject : Project where
  root := "."
  config := ⟨some ⟨some "S", none, some ["get"], none⟩, none, none⟩
  sources := [⟨"./a.rs", "impl S \x7b pub fn put() \x7b\x7d \x7d"⟩]
  outcome := Corpus.parse [⟨"./a.rs", "impl S \x7b pub fn put() \x7b\x7d \x7d"⟩]

theorem perform_checkDocs_undocumented : ∃ ending,
    perform ["--check-docs", "--suppress", "MissingExampleHeader"] undocumentedFiles "1" ["w"] =
        .ok ending ∧
      ending.exitCode = 1 ∧
      ending.tree.loadDocFindings "doc_findings.json" ["w"] =
        .ok ⟨Corpus.digest undocumentedProject.sources, "S",
          .ofList [("put", [.missingDocumentation])], []⟩ := by
  have hrequest : request ["--check-docs", "--suppress", "MissingExampleHeader"] =
      .ok (.run undocumentedOptions) := by
    decide +kernel
  have hreport : docReport undocumentedOptions undocumentedProject =
      ⟨"S", .ofList [("put", [.missingDocumentation])], .ofList [("put", "pub fn put()")], 1, 0,
        []⟩ := by
    decide +kernel
  have htarget : artifactTarget? undocumentedOptions undocumentedProject
      (docReport undocumentedOptions undocumentedProject) = some "doc_findings.json" := by
    rw [hreport]
    rfl
  have hread : undocumentedProject.IsRead undocumentedOptions undocumentedFiles ["w"] :=
    { there := by decide +kernel
      root := by decide +kernel
      config := ⟨some undocumentedProject.config, by decide +kernel, rfl⟩
      sources := ⟨["./a.rs"], by decide +kernel, by decide +kernel⟩
      outcome := rfl }
  have hkinds : ∀ kind, kind ∈ undocumentedOptions.suppress ∨
      kind ∈ undocumentedProject.config.suppressed → Finding.isKindName kind = true := by
    rintro kind (hkind | hkind)
    · obtain rfl := List.mem_singleton.1 hkind
      decide
    · cases hkind
  have hpasses : PassesDocCheck undocumentedOptions undocumentedProject "1" ["w"]
      undocumentedFiles undocumentedFiles := by
    refine ⟨rfl, hread, rfl, hkinds, ?_, ?_, ?_, by decide +kernel⟩
    · intro file hfile
      cases hfile
    · intro path hpath
      obtain rfl := Option.some.inj (htarget.symm.trans hpath)
      exact ⟨_, Prod.ext rfl (by decide +kernel)⟩
    · intro _
      rw [Json.Value.render, String.utf8ByteSize_ofList]
      decide +kernel
  obtain ⟨ending, hperform, -, -, -, hcode, hending⟩ := perform_checkDocs hrequest hpasses
  change match artifactTarget? _ _ (docReport _ _) with | none => _ | some path => _ at hending
  rw [htarget] at hending
  obtain ⟨place, -, -, hload⟩ := hending
  have hloaded := hload.trans (congrArg (fun report =>
    Except.ok (DocArtifact.ofReport (Corpus.digest undocumentedProject.sources) report)) hreport)
  exact ⟨ending, hperform, hcode.trans (congrArg DocReport.exitCode hreport), hloaded⟩

end ApiSurface.CommandLine
