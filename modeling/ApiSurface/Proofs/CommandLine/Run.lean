import ApiSurface.CommandLine.Run
import ApiSurface.Proofs.CommandLine.OutputPath

namespace ApiSurface.CommandLine

/-- From the files `before` on, however much was printed, the end of `x` and the files it leaves are
as `post` says. -/
def Leaves {α : Type} (x : Run α) (before : FileTree) (post : Except Stop α → FileTree → Prop) : Prop :=
  ∀ s : Session, s.tree = before → post (x.run s).1 (x.run s).2.tree

section Rules

variable {α β : Type} {x : Run α} {before : FileTree} {a : α}

theorem leaves_pure {post : Except Stop α → FileTree → Prop} (h : post (.ok a) before) :
    Leaves (pure a) before post := by
  rintro s rfl
  exact h

theorem leaves_throw {stop : Stop} {post : Except Stop α → FileTree → Prop}
    (h : post (.error stop) before) : Leaves (throw stop) before post := by
  rintro s rfl
  exact h

theorem Leaves.mono {post post' : Except Stop α → FileTree → Prop} (h : Leaves x before post)
    (hp : ∀ r after, post r after → post' r after) : Leaves x before post' :=
  fun s hs => hp _ _ (h s hs)

/-- What comes after a part goes on from the files that the part leaves, unless the run stops. -/
theorem leaves_bind {f : α → Run β} {post : Except Stop β → FileTree → Prop}
    (h : Leaves x before fun r after =>
      match r with
      | .ok a => Leaves (f a) after post
      | .error stop => post (.error stop) after) :
    Leaves (x >>= f) before post := by
  intro s hs
  have hx := h s hs
  change post (ExceptT.bindCont f (x.run s).1 (x.run s).2).1
    (ExceptT.bindCont f (x.run s).1 (x.run s).2).2.tree
  obtain ⟨r, s', hr⟩ : ∃ r s', x.run s = (r, s') := ⟨_, _, rfl⟩
  rw [hr] at hx ⊢
  cases r with
  | ok a => exact hx s' rfl
  | error stop => exact hx

variable {f : α → Run β} {post : Except Stop β → FileTree → Prop}

theorem leaves_pure_bind (h : Leaves (f a) before post) : Leaves (pure a >>= f) before post :=
  fun s hs => h s hs

theorem leaves_throw_bind {stop : Stop} (h : post (.error stop) before) :
    Leaves (throw stop >>= f) before post := by
  rintro s rfl
  exact h

theorem leaves_files_bind {f : FileTree → Run β} (h : Leaves (f before) before post) :
    Leaves (Run.files >>= f) before post := by
  rintro s rfl
  exact h s rfl

theorem leaves_print_bind {f : Unit → Run β} {text : String} (h : Leaves (f ()) before post) :
    Leaves (Run.print text >>= f) before post := by
  rintro s rfl
  exact h _ rfl

theorem leaves_printLine_bind {f : Unit → Run β} {text : String} (h : Leaves (f ()) before post) :
    Leaves (Run.printLine text >>= f) before post := leaves_print_bind h

theorem leaves_change_bind {action : FileTree → FileTree × α}
    (h : Leaves (f (action before).2) (action before).1 post) :
    Leaves (Run.change action >>= f) before post := by
  rintro s rfl
  exact h _ rfl

theorem leaves_orStop_bind {r : Except Stop α} (hok : ∀ a, r = .ok a → Leaves (f a) before post)
    (herror : ∀ stop, r = .error stop → post (.error stop) before) :
    Leaves (Run.orStop r >>= f) before post := by
  cases r with
  | ok a => exact leaves_pure_bind (hok a rfl)
  | error stop => exact leaves_throw_bind (herror stop rfl)

theorem leaves_orFail_bind {ε : Type} {message : String} {r : Except ε α}
    (hok : ∀ a, r = .ok a → Leaves (f a) before post)
    (herror : ∀ e, r = .error e → post (.error (.failed message)) before) :
    Leaves (Run.orFail message r >>= f) before post := by
  cases r with
  | ok a => exact leaves_pure_bind (hok a rfl)
  | error e => exact leaves_throw_bind (herror e rfl)

theorem leaves_orFail {ε : Type} {message : String} {r : Except ε α}
    {post : Except Stop α → FileTree → Prop} (hok : ∀ a, r = .ok a → post (.ok a) before)
    (herror : ∀ e, r = .error e → post (.error (.failed message)) before) :
    Leaves (Run.orFail message r) before post := by
  cases r with
  | ok a => exact leaves_pure (hok a rfl)
  | error e => exact leaves_throw (herror e rfl)

/-- A path is handed on as it is if it stays below where it is seen from. -/
theorem leaves_safePath_bind {f : String → Run β} {path : String}
    (hok : Path.StaysBelow path → Leaves (f path) before post)
    (hrefused : ¬ Path.StaysBelow path → ∀ error, post (.error (.refusedPath error)) before) :
    Leaves (Run.safePath path >>= f) before post := by
  refine leaves_orStop_bind (fun safe hsafe => ?_) fun stop hstop => ?_
  · obtain ⟨hbelow, rfl⟩ := outputPath_eq_ok_iff.1 (mapError_eq_ok_iff.1 hsafe)
    exact hok hbelow
  · cases hpath : outputPath path with
    | ok safe =>
      rw [hpath] at hstop
      cases hstop
    | error error =>
      rw [hpath] at hstop
      obtain rfl := Except.error.inj hstop
      refine hrefused (fun hbelow => ?_) error
      rw [outputPath_eq_ok_iff.2 ⟨hbelow, rfl⟩] at hpath
      cases hpath

end Rules

section Parts

variable {o : Options} {p : Project} {stamp : String} {here : List String} {before : FileTree}

theorem bind_eq_error_iff {ε α β : Type} {x : Except ε α} {f : α → Except ε β} {e : ε} :
    (x >>= f) = .error e ↔ x = .error e ∨ ∃ a, x = .ok a ∧ f a = .error e := by
  cases x <;> simp [bind, Except.bind]

theorem mapError_eq_error_iff {ε ε' α : Type} {x : Except ε α} {f : ε → ε'} {e : ε'} :
    x.mapError f = .error e ↔ ∃ e', x = .error e' ∧ f e' = e := by
  cases x with
  | ok a =>
    constructor
    · intro h
      cases h
    · rintro ⟨e', h, -⟩
      cases h
  | error e' =>
    constructor
    · intro h
      exact ⟨e', rfl, Except.error.inj h⟩
    · rintro ⟨e', h, rfl⟩
      cases h
      rfl

/-- A project that cannot be read is a failure, never a refusal. -/
theorem exists_failed_of_read {stop : Stop} (h : Project.read o before here = .error stop) :
    ∃ message, stop = .failed message := by
  unfold Project.read at h
  dsimp only at h
  split at h
  · obtain hconfig | ⟨config, -, h⟩ := bind_eq_error_iff.1 h
    · obtain ⟨e, -, rfl⟩ := mapError_eq_error_iff.1 hconfig
      exact ⟨_, rfl⟩
    · split at h
      · obtain hsources | ⟨sources, -, h⟩ := bind_eq_error_iff.1 h
        · obtain ⟨e, -, rfl⟩ := mapError_eq_error_iff.1 hsources
          exact ⟨_, rfl⟩
        · cases h
      · exact ⟨_, (Except.error.inj h).symm⟩
  · exact ⟨_, (Except.error.inj h).symm⟩

/-- What is there once the records are written, if that is asked for. -/
def Dumped (o : Options) (p : Project) (stamp : String) (here : List String)
    (before after : FileTree) : Prop :=
  match o.dumpRecords with
  | none => after = before
  | some file => Path.StaysBelow file ∧
      before.saveRecords file ⟨Corpus.digest p.sources, p.outcome.records⟩ stamp here = (after, .ok ())

theorem Dumped.unique {after after' : FileTree} (h : Dumped o p stamp here before after)
    (h' : Dumped o p stamp here before after') : after = after' := by
  unfold Dumped at h h'
  cases hfile : o.dumpRecords with
  | none =>
    rw [hfile] at h h'
    exact h.trans h'.symm
  | some file =>
    rw [hfile] at h h'
    exact (Prod.mk.inj (h.2.symm.trans h'.2)).1

theorem leaves_dumpRecords {post : Except Stop Unit → FileTree → Prop}
    (hok : ∀ dumped, Dumped o p stamp here before dumped → post (.ok ()) dumped)
    (hrefused : ∀ file error, o.dumpRecords = some file → ¬ Path.StaysBelow file →
      post (.error (.refusedPath error)) before)
    (hfailed : ∀ file after fault message, o.dumpRecords = some file → Path.StaysBelow file →
      before.saveRecords file ⟨Corpus.digest p.sources, p.outcome.records⟩ stamp here =
        (after, .error fault) → post (.error (.failed message)) after) :
    Leaves (dumpRecords o p stamp here) before post := by
  unfold dumpRecords
  unfold Dumped at hok
  cases hfile : o.dumpRecords with
  | none =>
    rw [hfile] at hok
    exact leaves_pure (hok before rfl)
  | some file =>
    rw [hfile] at hok
    refine leaves_safePath_bind (fun hbelow => ?_) fun hbelow error => hrefused file error hfile hbelow
    refine leaves_change_bind (leaves_orFail (fun _ hsave => ?_) fun fault hsave => ?_)
    · exact hok _ ⟨hbelow, Prod.ext rfl hsave⟩
    · exact hfailed file _ fault _ hfile hbelow (Prod.ext rfl hsave)

theorem leaves_writeDot {path dot : String} {quiet : Bool} {post : Except Stop Unit → FileTree → Prop}
    (hno : post (.ok ()) before)
    (hok : ∀ written, before.writeFile path dot here = .ok written → post (.ok ()) written) :
    Leaves (writeDot path dot quiet here) before post := by
  refine leaves_files_bind ?_
  cases hwrite : before.writeFile path dot here with
  | error e =>
    rintro s rfl
    exact hno
  | ok written =>
    refine leaves_change_bind ?_
    cases quiet
    · rintro s rfl
      exact hok _ hwrite
    · exact leaves_pure (hok _ hwrite)

/-- The file that is asked for to hold the findings, as it is written on the command line or in the
settings. -/
def requestedArtifact? (o : Options) (p : Project) : Option String := o.artifact.or p.config.artifact?

/-- The file that is asked for is below the directory that it is seen from. -/
def RequestsBelow (o : Options) (p : Project) : Prop :=
  ∀ file, requestedArtifact? o p = some file → Path.StaysBelow file

/-- What the documentation check of a run reports. -/
def docReport (o : Options) (p : Project) : DocReport := (docRules o p.config).checkOutcome p.outcome

/-- The path that the findings are written to, if they are. -/
def artifactTarget? (o : Options) (p : Project) (report : DocReport) : Option String :=
  (o.artifact.or (p.config.artifact?.map (Path.join p.root))).or
    (if report.isClean then none else some defaultArtifact)

theorem leaves_artifactPath_bind {β : Type} {report : DocReport} {f : Option String → Run β}
    {post : Except Stop β → FileTree → Prop}
    (hok : RequestsBelow o p → Leaves (f (artifactTarget? o p report)) before post)
    (hrefused : ∀ file error, requestedArtifact? o p = some file → ¬ Path.StaysBelow file →
      post (.error (.refusedPath error)) before) :
    Leaves (artifactPath? o p report >>= f) before post := by
  unfold artifactPath?
  unfold RequestsBelow at hok
  unfold requestedArtifact? artifactTarget? at *
  cases ho : o.artifact with
  | some file =>
    rw [ho] at hok hrefused
    dsimp only
    rw [bind_assoc]
    refine leaves_safePath_bind (fun hbelow => leaves_pure_bind (hok ?_))
      fun hbelow error => hrefused file error rfl hbelow
    rintro _ ⟨⟩
    exact hbelow
  | none =>
    rw [ho] at hok hrefused
    cases hc : p.config.artifact? with
    | some file =>
      rw [hc] at hok hrefused
      dsimp only
      rw [bind_assoc]
      refine leaves_safePath_bind (fun hbelow => leaves_pure_bind (hok ?_))
        fun hbelow error => hrefused file error rfl hbelow
      rintro _ ⟨⟩
      exact hbelow
    | none =>
      rw [hc] at hok
      exact leaves_pure_bind (hok (by simp))

/-- The ends of a documentation check: a kind that does not exist, a path that is refused, a report
without an artifact, and an artifact that is saved or not. -/
theorem leaves_checkDocs {json : Bool} {post : Except Stop Nat → FileTree → Prop}
    (hkind : ∀ problem, Config.unknownKind? "" (docRules o p.config).suppressed = some problem →
      post (.error (.failed problem)) before)
    (hrefused : ∀ file error, Config.unknownKind? "" (docRules o p.config).suppressed = none →
      requestedArtifact? o p = some file → ¬ Path.StaysBelow file →
      post (.error (.refusedPath error)) before)
    (hnone : artifactTarget? o p (docReport o p) = none → RequestsBelow o p →
      post (.ok (docReport o p).exitCode) before)
    (hsaved : ∀ path saved, artifactTarget? o p (docReport o p) = some path →
      RequestsBelow o p →
      before.saveDocFindings path (.ofReport (Corpus.digest p.sources) (docReport o p)) stamp here =
        (saved, .ok ()) → post (.ok (docReport o p).exitCode) saved)
    (hfailed : ∀ path after fault message, artifactTarget? o p (docReport o p) = some path →
      RequestsBelow o p →
      before.saveDocFindings path (.ofReport (Corpus.digest p.sources) (docReport o p)) stamp here =
        (after, .error fault) → post (.error (.failed message)) after) :
    Leaves (checkDocs o p json stamp here) before post := by
  have hsave {path : String} {f : Unit → Run Nat}
      (htarget : artifactTarget? o p (docReport o p) = some path)
      (hbelow : RequestsBelow o p)
      (hf : ∀ after, post (.ok (docReport o p).exitCode) after → Leaves (f ()) after post) :
      Leaves (do
        let saved ← Run.change fun tree =>
          tree.saveDocFindings path (.ofReport (Corpus.digest p.sources) (docReport o p)) stamp here
        f (← Run.orFail ("Failed to write doc artifact " ++ path) saved)) before post := by
    refine leaves_change_bind (leaves_orFail_bind (fun _ hsave => ?_) fun fault hsave => ?_)
    · exact hf _ (hsaved path _ htarget hbelow (Prod.ext rfl hsave))
    · exact hfailed path _ fault _ htarget hbelow (Prod.ext rfl hsave)
  have hreport : (docRules o p.config).checkOutcome p.outcome = docReport o p := rfl
  unfold checkDocs
  dsimp only
  rw [hreport]
  cases hkinds : Config.unknownKind? "" (docRules o p.config).suppressed with
  | some problem => exact leaves_throw_bind (hkind problem hkinds)
  | none =>
    have hstop file error := hrefused file error hkinds
    -- The artifact is told of in the text only.
    dsimp only
    split
    · refine leaves_printLine_bind (leaves_artifactPath_bind (fun hbelow => ?_) hstop)
      cases htarget : artifactTarget? o p (docReport o p) with
      | none => exact leaves_pure (hnone htarget hbelow)
      | some path => exact hsave htarget hbelow fun after => leaves_pure
    · refine leaves_print_bind (leaves_artifactPath_bind (fun hbelow => ?_) hstop)
      cases htarget : artifactTarget? o p (docReport o p) with
      | none => exact leaves_pure (hnone htarget hbelow)
      | some path =>
        exact hsave htarget hbelow fun after hafter => leaves_printLine_bind (leaves_pure hafter)

theorem leaves_showSummary {json : Bool} {post : Except Stop Nat → FileTree → Prop}
    (h : post (.ok 0) before) : Leaves (showSummary p json) before post := by
  unfold showSummary
  dsimp only
  split
  · exact leaves_printLine_bind (leaves_pure h)
  · exact leaves_print_bind (leaves_pure h)

end Parts

/-- Whether a run asks what can be reached. -/
theorem asksQuery_iff {o : Options} : (o.reachable.isSome || !o.deps.isEmpty) = true ↔
    ¬ (o.reachable = none ∧ o.deps = []) := by
  cases o.reachable <;> cases o.deps <;> simp

/-- The exit code of a run by how it ends. -/
def endCode : Except Stop Nat → Nat
  | .ok exitCode => exitCode
  | .error stop => stop.exitCode

theorem exists_of_leaves {o : Options} {tree : FileTree} {stamp : String} {here : List String}
    {post : Except Stop Nat → FileTree → Prop} (h : Leaves (run o stamp here) tree post) :
    ∃ r, post r (o.execute tree stamp here).tree ∧
      (o.execute tree stamp here).exitCode = endCode r := by
  have hpost := h ⟨tree, "", ""⟩ rfl
  obtain ⟨r, s, hr⟩ : ∃ r s, (run o stamp here).run ⟨tree, "", ""⟩ = (r, s) := ⟨_, _, rfl⟩
  rw [hr] at hpost
  unfold Options.execute
  rw [hr]
  cases r with
  | ok exitCode => exact ⟨.ok exitCode, hpost, rfl⟩
  | error stop => exact ⟨.error stop, hpost, rfl⟩

end ApiSurface.CommandLine
