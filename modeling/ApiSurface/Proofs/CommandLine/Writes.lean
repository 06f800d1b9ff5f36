import ApiSurface.Proofs.CallGraph.Reach
import ApiSurface.Proofs.CommandLine.Run
import ApiSurface.Proofs.FileTree.Frame

namespace ApiSurface.CommandLine

open FileTree

/-- The path that the drawn graph is written to. -/
def Options.dotPath (o : Options) (start : String) : String := o.dotFile.getD (defaultDotFile start)

/-- What is reached from `start` is asked for, in a call graph that can be loaded from the files. -/
structure Asks (o : Options) (files : FileTree) (here : List String) (graph : CallGraph)
    (start : String) : Prop where
  reachable : o.reachable = some start
  deps : o.deps ≠ []
  graph : files.loadCallGraph o.deps here = .ok graph

/-- The places that a run from the files `before` to the files `after` may write to. -/
inductive IsOutput (o : Options) (stamp : String) (here : List String) (before after : FileTree) :
    List String → Prop where
  | records {file : String} (asked : o.dumpRecords = some file) (below : Path.StaysBelow file) :
      IsOutput o stamp here before after (here ++ Path.steps file)
  | findings {file : String} (checks : o.checkDocs = true) (asked : o.artifact = some file)
      (below : Path.StaysBelow file) : IsOutput o stamp here before after (here ++ Path.steps file)
  /-- The settings name the file, seen from the root of the project. -/
  | configured {p : Project} {file : String} {root : List String} (checks : o.checkDocs = true)
      (free : o.artifact = none) (project : Project.read o before here = .ok p)
      (asked : p.config.artifact? = some file) (below : Path.StaysBelow file)
      (leads : after.LeadsTo p.root here root) :
      IsOutput o stamp here before after (root ++ Path.steps file)
  | byDefault {p : Project} (checks : o.checkDocs = true) (free : o.artifact = none)
      (project : Project.read o before here = .ok p) (silent : p.config.artifact? = none)
      (below : Path.StaysBelow defaultArtifact) :
      IsOutput o stamp here before after (here ++ Path.steps defaultArtifact)
  | drawn {p : Project} {dumped : FileTree} {graph : CallGraph} {start : String}
      (project : Project.read o before here = .ok p) (dump : Dumped o p stamp here before dumped)
      (asks : Asks o dumped here graph start) (known : start ∈ graph.calls.keys)
      (below : Path.StaysBelow (o.dotPath start)) :
      IsOutput o stamp here before after (here ++ Path.steps (o.dotPath start))

/-- With the files as they are once the records are written, the rest of what a run is asked for is
refused: the path of the findings, the start, or the path of the drawn graph. -/
inductive Refuses (o : Options) (p : Project) (here : List String) (files : FileTree) : Prop where
  | findings {file : String} (noQuery : o.reachable = none ∧ o.deps = []) (checks : o.checkDocs = true)
      (kinds : Config.unknownKind? "" (docRules o p.config).suppressed = none)
      (asked : requestedArtifact? o p = some file) (above : ¬ Path.StaysBelow file)
  | start {graph : CallGraph} {start : String} (asks : Asks o files here graph start)
      (unknown : start ∉ graph.calls.keys)
  | drawn {graph : CallGraph} {start : String} (asks : Asks o files here graph start)
      (known : start ∈ graph.calls.keys) (above : ¬ Path.StaysBelow (o.dotPath start))

/-- A run from the files `before` is refused something, and `after` are the files it leaves: those from
before if it was the path of the records, else those with the records and nothing more. -/
inductive RefusedLeaving (o : Options) (stamp : String) (here : List String)
    (before after : FileTree) : Prop where
  | records {p : Project} {file : String} (project : Project.read o before here = .ok p)
      (asked : o.dumpRecords = some file) (above : ¬ Path.StaysBelow file) (same : after = before)
  | rest {p : Project} (project : Project.read o before here = .ok p)
      (dump : Dumped o p stamp here before after) (refuses : Refuses o p here after)

/-- A run that ends like this with the files `after` changed what it may change, and it ends with two
exactly if it refused something, for which it then wrote nothing. -/
structure WritesOutputs (o : Options) (stamp : String) (here : List String) (before : FileTree)
    (r : Except Stop Nat) (after : FileTree) : Prop where
  frame : Frame (IsOutput o stamp here before after) (IsTemporary stamp) before after
  refused : endCode r = 2 ↔ RefusedLeaving o stamp here before after

section Parts

variable {o : Options} {p : Project} {stamp : String} {here : List String}
  {before dumped after : FileTree} {json : Bool}

theorem frame_saveRecords {file contents : String} {r : Except Fault Unit}
    (hfile : o.dumpRecords = some file) (hbelow : Path.StaysBelow file)
    (hsave : before.writeAtomic file contents stamp here = (dumped, r)) :
    Frame (IsOutput o stamp here before after) (IsTemporary stamp) before dumped := by
  refine (frame_writeBelow hbelow hsave).mono_may fun place hplace => ?_
  rw [hplace.2]
  exact .records hfile hbelow

/-- Writing the records changes their file alone. -/
theorem Dumped.frame (h : Dumped o p stamp here before dumped) :
    Frame (IsOutput o stamp here before after) (IsTemporary stamp) before dumped := by
  unfold Dumped at h
  split at h
  · rw [h]
    exact .refl before
  · rename_i file hfile
    exact frame_saveRecords hfile h.1 h.2

/-- Once the records are written, only the rest can be refused. -/
theorem RefusedLeaving.refuses (h : RefusedLeaving o stamp here before after)
    (hp : Project.read o before here = .ok p) (hd : Dumped o p stamp here before dumped) :
    after = dumped ∧ Refuses o p here dumped := by
  cases h with
  | records _ hfile habove _ =>
    unfold Dumped at hd
    rw [hfile] at hd
    exact absurd hd.1 habove
  | rest hp' hd' hrefuses =>
    obtain rfl := Except.ok.inj (hp.symm.trans hp')
    obtain rfl := hd.unique hd'
    exact ⟨rfl, hrefuses⟩

/-- A run that is refused nothing ends with another code than two. -/
theorem WritesOutputs.of_not_refuses {r : Except Stop Nat} (hp : Project.read o before here = .ok p)
    (hd : Dumped o p stamp here before dumped) (hn : ¬ Refuses o p here dumped) (hr : endCode r ≠ 2)
    (hframe : Frame (IsOutput o stamp here before after) (IsTemporary stamp) before after) :
    WritesOutputs o stamp here before r after :=
  ⟨hframe, fun h => absurd h hr, fun h => absurd (h.refuses hp hd).2 hn⟩

theorem WritesOutputs.of_refuses {r : Except Stop Nat} (hp : Project.read o before here = .ok p)
    (hd : Dumped o p stamp here before dumped) (hrefuses : Refuses o p here dumped)
    (hr : endCode r = 2) : WritesOutputs o stamp here before r dumped :=
  ⟨hd.frame, fun _ => .rest hp hd hrefuses, fun _ => hr⟩

theorem endCode_failed (message : String) : endCode (.error (.failed message)) ≠ 2 := by
  rw [endCode, Stop.exitCode]
  decide

section Query

variable {graph : CallGraph} {start : String}

/-- With a start that is known and a path that is below, nothing of a query is refused. -/
theorem not_refuses_of_asks (hasks : Asks o dumped here graph start) (hstart : start ∈ graph.calls.keys)
    (hbelow : Path.StaysBelow (o.dotPath start)) : ¬ Refuses o p here dumped := by
  rintro (⟨hq, -⟩ | ⟨hasks', hunknown⟩ | ⟨hasks', -, habove⟩)
  · cases hasks.reachable.symm.trans hq.1
  · obtain rfl := Option.some.inj (hasks.reachable.symm.trans hasks'.reachable)
    obtain rfl := Except.ok.inj (hasks.graph.symm.trans hasks'.graph)
    exact hunknown hstart
  · obtain rfl := Option.some.inj (hasks.reachable.symm.trans hasks'.reachable)
    exact habove hbelow

/-- Where nothing is asked for in a graph that can be loaded, nothing of a query is refused. -/
theorem not_refuses_of_not_asks (hq : ¬ (o.reachable = none ∧ o.deps = []))
    (h : ∀ graph start, ¬ Asks o dumped here graph start) : ¬ Refuses o p here dumped := by
  rintro (⟨hq', -⟩ | ⟨hasks, -⟩ | ⟨hasks, -⟩)
  · exact hq hq'
  · exact h _ _ hasks
  · exact h _ _ hasks

/-- Drawing the graph writes its file or nothing. -/
theorem drawGraph_writesOutputs {dot : String} {quiet : Bool} (hp : Project.read o before here = .ok p)
    (hd : Dumped o p stamp here before dumped) (hasks : Asks o dumped here graph start)
    (hstart : start ∈ graph.calls.keys) :
    Leaves (do
      let path ← Run.safePath (o.dotFile.getD (defaultDotFile start))
      writeDot path dot quiet here
      return 0) dumped (WritesOutputs o stamp here before) := by
  refine leaves_safePath_bind (fun hbelow => ?_) fun habove _ =>
    .of_refuses hp hd (.drawn hasks hstart habove) rfl
  have hdraw : Leaves (writeDot (o.dotPath start) dot quiet here) dumped fun r after =>
      r = .ok () ∧ Frame (IsOutput o stamp here before after) (IsTemporary stamp) before after := by
    refine leaves_writeDot ⟨rfl, hd.frame⟩ fun written hwrite => ⟨rfl, ?_⟩
    obtain ⟨place, hplace, hframe⟩ := frame_writeFile hwrite
    refine hd.frame.trans (hframe.mono_may fun _ he => ?_)
    rw [he, eq_steps_of_staysBelow hplace hbelow]
    exact .drawn hp hd hasks hstart hbelow
  refine leaves_bind (hdraw.mono ?_)
  rintro _ after ⟨rfl, hframe⟩
  have hcode : endCode (.ok 0) ≠ 2 := by decide
  exact leaves_pure (.of_not_refuses hp hd (not_refuses_of_asks hasks hstart hbelow) hcode hframe)

theorem showReachable_writesOutputs (hp : Project.read o before here = .ok p)
    (hd : Dumped o p stamp here before dumped) (hq : ¬ (o.reachable = none ∧ o.deps = [])) :
    Leaves (showReachable o p json here) dumped (WritesOutputs o stamp here before) := by
  have hfailed {message : String} (h : ∀ graph start, ¬ Asks o dumped here graph start) :
      WritesOutputs o stamp here before (.error (.failed message)) dumped :=
    .of_not_refuses hp hd (not_refuses_of_not_asks hq h) (endCode_failed message) hd.frame
  unfold showReachable
  cases hr : o.reachable with
  | none =>
    refine leaves_throw (hfailed fun graph start hasks => ?_)
    cases hr.symm.trans hasks.reachable
  | some start =>
    dsimp only
    split
    · rename_i hdeps
      exact leaves_throw_bind (hfailed fun _ _ hasks => hasks.deps (List.isEmpty_iff.1 hdeps))
    · rename_i hdeps
      refine leaves_files_bind (leaves_orFail_bind (fun graph hgraph => ?_) fun fault hfault => ?_)
      · have hasks : Asks o dumped here graph start := ⟨hr, mt List.isEmpty_iff.2 hdeps, hgraph⟩
        by_cases hstart : start ∈ graph.calls.keys
        · rw [CallGraph.reachableFrom_of_mem hstart]
          dsimp only
          split
          · exact leaves_printLine_bind (drawGraph_writesOutputs hp hd hasks hstart)
          · split
            · exact leaves_printLine_bind (drawGraph_writesOutputs hp hd hasks hstart)
            · exact leaves_print_bind (drawGraph_writesOutputs hp hd hasks hstart)
        · rw [CallGraph.reachableFrom_of_not_mem hstart]
          exact leaves_throw (.of_refuses hp hd (.start hasks hstart) rfl)
      · refine hfailed fun graph start hasks => ?_
        cases hfault.symm.trans hasks.graph

end Query

/-- The file of the findings is where it may be. -/
theorem frame_saveFindings {report : DocReport} {path contents : String} {r : Except Fault Unit}
    (hp : Project.read o before here = .ok p) (hc : o.checkDocs = true)
    (hbelow : ∀ file, requestedArtifact? o p = some file → Path.StaysBelow file)
    (hpath : artifactTarget? o p report = some path)
    (hsave : dumped.writeAtomic path contents stamp here = (after, r)) :
    Frame (IsOutput o stamp here before after) (IsTemporary stamp) dumped after := by
  refine (frame_writeAtomic hsave).mono_may fun place hplace => ?_
  unfold requestedArtifact? at hbelow
  unfold artifactTarget? at hpath
  cases ho : o.artifact with
  | some file =>
    rw [ho] at hbelow hpath
    obtain rfl := Option.some.inj hpath
    rw [eq_steps_of_staysBelow hplace.2 (hbelow file rfl)]
    exact .findings hc ho (hbelow file rfl)
  | none =>
    rw [ho] at hbelow hpath
    cases hf : p.config.artifact? with
    | some file =>
      rw [hf] at hbelow hpath
      obtain rfl := Option.some.inj hpath
      obtain ⟨root, hroot, rfl⟩ := exists_of_locate_join hplace.2 (hbelow file rfl)
      exact .configured hc ho hp hf (hbelow file rfl) hroot
    | none =>
      rw [hf] at hpath
      have hdefault : path = defaultArtifact := by
        cases hclean : report.isClean
        · simpa [hclean] using hpath.symm
        · simp [hclean] at hpath
      have hbelow : Path.StaysBelow defaultArtifact := ⟨by decide, by decide, by decide⟩
      subst hdefault
      rw [eq_steps_of_staysBelow hplace.2 hbelow]
      exact .byDefault hc ho hp hf hbelow

theorem endCode_exitCode (report : DocReport) : endCode (.ok report.exitCode) ≠ 2 := by
  rw [endCode, DocReport.exitCode]
  cases report.isClean <;> decide

theorem checkDocs_writesOutputs (hp : Project.read o before here = .ok p)
    (hd : Dumped o p stamp here before dumped) (hq : o.reachable = none ∧ o.deps = [])
    (hc : o.checkDocs = true) :
    Leaves (checkDocs o p json stamp here) dumped (WritesOutputs o stamp here before) := by
  have hrefuses (h : Refuses o p here dumped) : ∃ file,
      Config.unknownKind? "" (docRules o p.config).suppressed = none ∧
        requestedArtifact? o p = some file ∧ ¬ Path.StaysBelow file := by
    obtain ⟨-, -, hkinds, hfile, habove⟩ | ⟨hasks, -⟩ | ⟨hasks, -⟩ := h
    · exact ⟨_, hkinds, hfile, habove⟩
    · cases hq.1.symm.trans hasks.reachable
    · cases hq.1.symm.trans hasks.reachable
  have hnone (hbelow : RequestsBelow o p) : ¬ Refuses o p here dumped := by
    intro h
    obtain ⟨file, -, hfile, habove⟩ := hrefuses h
    exact habove (hbelow file hfile)
  apply leaves_checkDocs
  case hkind =>
    intro problem hproblem
    refine .of_not_refuses hp hd (fun h => ?_) (endCode_failed problem) hd.frame
    obtain ⟨file, hkinds, -⟩ := hrefuses h
    cases hkinds.symm.trans hproblem
  case hrefused =>
    exact fun file _ hkinds hfile habove =>
      .of_refuses hp hd (.findings hq hc hkinds hfile habove) rfl
  case hnone =>
    exact fun _ hbelow => .of_not_refuses hp hd (hnone hbelow) (endCode_exitCode _) hd.frame
  case hsaved =>
    intro path saved hpath hbelow hsave
    exact .of_not_refuses hp hd (hnone hbelow) (endCode_exitCode _)
      (hd.frame.trans (frame_saveFindings hp hc hbelow hpath hsave))
  case hfailed =>
    intro path after fault message hpath hbelow hsave
    exact .of_not_refuses hp hd (hnone hbelow) (endCode_failed message)
      (hd.frame.trans (frame_saveFindings hp hc hbelow hpath hsave))

/-- However a run ends, it wrote where it may and nothing for what it refused. -/
theorem run_writesOutputs (o : Options) (stamp : String) (here : List String) (before : FileTree) :
    Leaves (run o stamp here) before (WritesOutputs o stamp here before) := by
  refine leaves_files_bind (leaves_orStop_bind (fun p hp => ?_) fun stop hstop => ?_)
  · -- The records come first, whatever else is asked for.
    refine leaves_bind (leaves_dumpRecords (fun dumped hd => ?_) ?_ ?_)
    · dsimp only
      split
      · exact showReachable_writesOutputs hp hd (asksQuery_iff.1 ‹_›)
      · rename_i hquery
        have hq : o.reachable = none ∧ o.deps = [] := not_not.1 (mt asksQuery_iff.2 hquery)
        split
        · exact checkDocs_writesOutputs hp hd hq ‹_›
        · rename_i hc
          have hcode : endCode (.ok 0) ≠ 2 := by decide
          refine leaves_showSummary (.of_not_refuses hp hd ?_ hcode hd.frame)
          rintro (⟨-, hchecks, -⟩ | ⟨hasks, -⟩ | ⟨hasks, -⟩)
          · exact hc hchecks
          · cases hq.1.symm.trans hasks.reachable
          · cases hq.1.symm.trans hasks.reachable
    · exact fun file _ hfile habove =>
        ⟨.refl before, fun _ => .records hp hfile habove rfl, fun _ => rfl⟩
    · intro file after fault message hfile hbelow hsave
      refine ⟨frame_saveRecords hfile hbelow hsave, fun h => absurd h (endCode_failed message), ?_⟩
      rintro (⟨-, hfile', habove, -⟩ | ⟨hp', hd, -⟩)
      · obtain rfl := Option.some.inj (hfile.symm.trans hfile')
        exact absurd hbelow habove
      · obtain rfl := Except.ok.inj (hp.symm.trans hp')
        unfold Dumped at hd
        rw [hfile] at hd
        cases (Prod.mk.inj (hsave.symm.trans hd.2)).2
  · obtain ⟨message, rfl⟩ := exists_failed_of_read hstop
    refine ⟨.refl before, fun h => absurd h (endCode_failed message), ?_⟩
    rintro (⟨hp, -⟩ | ⟨hp, -⟩) <;> cases hstop.symm.trans hp

end Parts

/-- Whatever the arguments are and whatever the files, a run makes or changes only files that it is
asked for, below the working directory or below the root of the project, and takes away none but where
its own temporary file was. It ends with two exactly if a path or a start is refused, and then nothing
was written for that. Nothing is written without a run, and the name made for a drawn graph is a plain
file name. -/
theorem perform_writes :
    (∀ arguments tree stamp here ending, perform arguments tree stamp here = .ok ending →
      match request arguments with
      | .ok (.run o) =>
        Frame (IsOutput o stamp here tree ending.tree) (IsTemporary stamp) tree ending.tree ∧
          (ending.exitCode = 2 ↔ RefusedLeaving o stamp here tree ending.tree)
      | _ => ending.tree = tree) ∧
    ∀ method, Path.StaysBelow (defaultDotFile method) ∧
      Path.segments (defaultDotFile method) = [defaultDotFile method] ∧
      Path.steps (defaultDotFile method) = [defaultDotFile method] := by
  constructor
  · intro arguments tree stamp here ending h
    obtain ⟨asked, hasked, rfl⟩ := map_eq_ok_iff.1 h
    rw [hasked]
    cases asked with
    | run o =>
      obtain ⟨r, hwrites, hcode⟩ := exists_of_leaves (run_writesOutputs o stamp here tree)
      exact ⟨hwrites.frame, hcode ▸ hwrites.refused⟩
    | version => rfl
    | help => rfl
  · intro method
    exact ⟨staysBelow_defaultDotFile method, segments_defaultDotFile method,
      steps_defaultDotFile method⟩

theorem perform_writes_nothing_above :
    let tree := dir [("w", dir [("g.json", .file (.ofText "\x7b\"a\": []\x7d"))])]
    ∃ ending, perform ["--dump-records", "r.json", "--reachable", "a", "--deps", "g.json",
        "--dot-file", "../o.dot"] tree "1" ["w"] = .ok ending ∧
      ending.exitCode = 2 ∧ ending.tree.isFileAt "r.json" ["w"] = true ∧
      (∀ place data, ending.tree.HasFile place data →
        tree.HasFile place data ∨ place = ["w", "r.json"]) ∧
      ∃ a, tree.saveRecords "r.json" a "1" ["w"] = (ending.tree, .ok ()) := by
  intro tree
  let o : Options := { Options.empty with
    dumpRecords := some "r.json", reachable := some "a", deps := ["g.json"], dotFile := some "../o.dot" }
  have hrequest : request ["--dump-records", "r.json", "--reachable", "a", "--deps", "g.json",
      "--dot-file", "../o.dot"] = .ok (.run o) := by
    decide +kernel
  have hperform : perform ["--dump-records", "r.json", "--reachable", "a", "--deps", "g.json",
      "--dot-file", "../o.dot"] tree "1" ["w"] = .ok (o.execute tree "1" ["w"]) := by
    rw [perform, hrequest]
    rfl
  have hcode : (o.execute tree "1" ["w"]).exitCode = 2 := by decide +kernel
  have hwrites := perform_writes.1 _ _ _ _ _ hperform
  rw [hrequest] at hwrites
  obtain ⟨hframe, hrefused⟩ := hwrites
  refine ⟨_, hperform, hcode, by decide +kernel, fun place data hfile => ?_, ?_⟩
  · refine (hframe.new place data hfile).imp_right fun hplace => ?_
    cases hplace with
    | records asked below =>
      obtain rfl := Option.some.inj asked
      rfl
    | findings checks | configured checks | byDefault checks => cases checks
    | drawn _ _ asks _ below =>
      obtain rfl := Option.some.inj asks.reachable
      exact absurd below.noUp (by decide)
  · cases hrefused.1 hcode with
    | records _ asked above same =>
      obtain rfl := Option.some.inj asked
      exact absurd ⟨by decide, by decide, by decide⟩ above
    | rest _ dump _ => exact ⟨_, dump.2⟩

end ApiSurface.CommandLine
