import ApiSurface.Proofs.Doc.Report
import ApiSurface.Proofs.Source.Owner
import ApiSurface.Proofs.Source.Rejection

namespace ApiSurface

open Text TopLevel
open ApiSurface.Bracket (IsNested Passes)

/-- Arguments in angle brackets, and a blank behind them. -/
def argumentList (args : List Char) : List Char := '<' :: args ++ ['>', ' ']

/-- The block of `owner` with the arguments `args`. -/
def argumentBlock (owner : String) (args inner : List Char) : List Char :=
  Target.implWord ++ ' ' :: (owner.toList ++ argumentList args ++ '\x7b' :: (inner ++ ['\x7d']))

section ArgumentList

variable {args : List Char}

theorem passes_argumentList (ha : IsNested args) (hl : lastAfter start args ≠ '-') :
    Passes isGap (argumentList args) := by
  have hangle : Passes isGap ('<' :: args ++ ['>']) := Passes.enclose .angle ha (fun _ => hl) rfl
  have happend : argumentList args = '<' :: args ++ ['>'] ++ [' '] := by
    rw [argumentList, List.append_assoc]
    rfl
  rw [happend]
  exact hangle.append passes_blank

/-- Behind a name an argument list is read argument by argument, and its blank is left. -/
theorem TypeExpr.namedWith_argumentList (type : Reader TypeExpr) (name : String)
    (ha : IsNested args) (hl : lastAfter start args ≠ '-') :
    TypeExpr.namedWith type name (argumentList args) =
      ((split ',' args).mapM (GenericArg.wholeWith type)).map
        fun generics => (.named name generics, [' ']) := by
  have hs : trimStart (argumentList args) = argumentList args := trimStart_cons rfl
  have he : Bracket.enclosed (argumentList args) = .ok (args, [' ']) :=
    Bracket.IsNested.enclosed (b := .angle) ha (fun _ => hl) [' ']
  rw [TypeExpr.namedWith, hs]
  change (Bracket.enclosed (argumentList args) >>= _) = _
  rw [he, ok_bind]
  dsimp only
  cases (split ',' args).mapM (GenericArg.wholeWith type) <;> rfl

theorem lineFeeds_argumentList : lineFeeds (argumentList args) = lineFeeds args := by
  simp [argumentList, lineFeeds]

end ArgumentList

namespace IsOwner

variable {owner : String} {args : List Char}

/-- An owner with arguments is read as its name with what is read of the arguments. -/
theorem ofText_argumentList (h : IsOwner owner.toList) (ha : IsNested args)
    (hl : lastAfter start args ≠ '-') :
    TypeExpr.ofText (owner.toList ++ argumentList args) =
      ((split ',' args).mapM (GenericArg.wholeWith (TypeExpr.readWithin
        ((owner.toList ++ argumentList args).length - 1)))).map (.named owner) := by
  have hread := h.read_append (argumentList args) rfl (by simp [argumentList])
  rw [TypeExpr.namedWith_argumentList _ owner ha hl] at hread
  generalize (split ',' args).mapM (GenericArg.wholeWith _) = generics at hread ⊢
  cases generics with
  | error fault => exact congrArg (· >>= _) hread
  | ok generics => exact TypeExpr.wholeWith_eq_ok hread rfl

/-- Whatever the arguments are, the owner is told by the name. -/
theorem ownerOfText_argumentList (h : IsOwner owner.toList) (ha : IsNested args)
    (hl : lastAfter start args ≠ '-') :
    Target.ownerOfText (owner.toList ++ argumentList args) =
      (TypeExpr.ofText (owner.toList ++ argumentList args)).map fun _ => owner := by
  rw [Target.ownerOfText, h.ofText_argumentList ha hl]
  generalize (split ',' args).mapM (GenericArg.wholeWith _) = generics
  cases generics with
  | error fault => rfl
  | ok generics =>
    rw [Except.map, ok_bind, h.ownerName?_named]
    rfl

end IsOwner

theorem isOwner_graph : IsOwner "Graph".toList := ⟨by decide, by decide⟩

/-- A function pointer is no type argument: what is read of it is the name `fn`. -/
theorem ofText_graph_call : TypeExpr.ofText ("Graph".toList ++ argumentList "fn(u8)".toList) =
    .error (.malformedSignature "unexpected '(u8)' after generic argument 'fn'") := by
  decide +kernel

section Block

open Target (implWord)

variable {owner : String} {args inner : List Char}

/-- A block with arguments that can be read holds what its text holds. -/
theorem parseSource_of_ofText_eq_ok (file : String) (ho : IsOwner owner.toList)
    (ha : IsNested args) (hl : lastAfter start args ≠ '-') (hb : Bracket.curly.IsBalanced inner)
    {type : TypeExpr} (ht : TypeExpr.ofText (owner.toList ++ argumentList args) = .ok type) :
    parseSource file (argumentBlock owner args inner) =
      ((parseSource file inner).inBlockOf owner).movedDown (lineFeeds args) := by
  have howner : Target.ownerOfText (owner.toList ++ argumentList args) = .ok owner := by
    rw [ho.ownerOfText_argumentList ha hl, ht]
    rfl
  have hn := Piece.next_of_ownerOfText ho (passes_argumentList ha hl) howner hb []
  rw [ho.lineFeeds_head, lineFeeds_argumentList] at hn
  exact parseSource_of_ownerBlock file (List.cons_ne_nil _ _) (trimStart_cons rfl) hn

/-- A block with arguments that cannot be read is one diagnostic without an owner. -/
theorem parseSource_of_ofText_eq_error (file : String) (ho : IsOwner owner.toList)
    (ha : IsNested args) (hl : lastAfter start args ≠ '-') (hb : Bracket.curly.IsBalanced inner)
    {fault : Fault}
    (ht : TypeExpr.ofText (owner.toList ++ argumentList args) = .error fault) :
    parseSource file (argumentBlock owner args inner) =
      .ofDiagnostic (.ofFault file 1 fault none) := by
  have hp := passes_argumentList ha hl
  have hlead := Lead.read_implWord (' ' :: (owner.toList ++ argumentList args))
  have hkeyword : keyword? implWord (implWord ++ ' ' :: (owner.toList ++ argumentList args)) = _ :=
    keyword?_append implWord (continuesWord_blank _)
  have hread := Target.read_append ho hp (inner ++ ['\x7d'])
  rw [ho.ownerOfText_argumentList ha hl, ht] at hread
  have hblank : ∀ c ∈ (implWord ++ ' ' :: (owner.toList ++ argumentList args)).head?,
      isBlank c = false := by
    intro c hc
    obtain rfl : 'i' = c := Option.some.inj hc
    rfl
  have hfront : implWord ++ ' ' :: (owner.toList ++ argumentList args) ++
      '\x7b' :: (inner ++ '\x7d' :: []) = argumentBlock owner args inner := by
    rw [argumentBlock, List.append_assoc, List.cons_append]
  have hrejected : IsRejected (implWord ++ ' ' :: (owner.toList ++ argumentList args))
      (implWord ++ ' ' :: (owner.toList ++ argumentList args) ++ '\x7b' :: (inner ++ '\x7d' :: []))
      fault := by
    rw [hfront]
    exact .inr ⟨by rw [hkeyword]; rfl, hread⟩
  have hparse := Outcome.ofText_rejected file none hblank hlead (ho.isHeader_head hp) hb hrejected 1 []
  rw [hfront, Outcome.ofText_of_blank (s := []) rfl, Outcome.append_empty] at hparse
  exact hparse

end Block

/-- The documentation check of a type sees no diagnostic without an owner. -/
theorem DocRules.checkOutcome_of_owner_none (rules : DocRules) {d : Diagnostic} (hd : d.owner = none) :
    (rules.checkOutcome (.ofDiagnostic d)).unparsed = [] ∧
      (rules.checkOutcome (.ofDiagnostic d)).exitCode = 0 := by
  constructor
  · simp [checkOutcome, Outcome.ofDiagnostic, hd]
  · rw [exitCode_checkOutcome_iff]
    simp [Outcome.ofDiagnostic, hd]

/-- A block of a type with arguments is entered with the type as owner exactly if the arguments can be
read. Otherwise nothing of it is read, and no check fails for it. -/
theorem parseSource_argumentBlock (file : String) {owner : String} {args inner : List Char}
    (ho : IsOwner owner.toList) (ha : IsNested args) (hl : lastAfter start args ≠ '-')
    (hb : Bracket.curly.IsBalanced inner) :
    (∀ type, TypeExpr.ofText (owner.toList ++ argumentList args) = .ok type →
      parseSource file (argumentBlock owner args inner) =
        ((parseSource file inner).inBlockOf owner).movedDown (lineFeeds args)) ∧
    ∀ fault, TypeExpr.ofText (owner.toList ++ argumentList args) = .error fault →
      parseSource file (argumentBlock owner args inner) =
        .ofDiagnostic (.ofFault file 1 fault none) ∧
      ∀ rules : DocRules,
        (rules.checkOutcome (parseSource file (argumentBlock owner args inner))).unparsed = [] ∧
        (rules.checkOutcome (parseSource file (argumentBlock owner args inner))).exitCode = 0 := by
  constructor
  · intro type ht
    exact parseSource_of_ofText_eq_ok file ho ha hl hb ht
  · intro fault ht
    have hparse := parseSource_of_ofText_eq_error file ho ha hl hb ht
    refine ⟨hparse, ?_⟩
    intro rules
    rw [hparse]
    exact rules.checkOutcome_of_owner_none rfl

theorem parseSource_argumentBlock_graph :
    parseSource "graph.rs" (argumentBlock "Graph" "Vec<u8>, 'a".toList " fn len() \x7b\x7d ".toList) =
      ((parseSource "graph.rs" " fn len() \x7b\x7d ".toList).inBlockOf "Graph").movedDown 0 ∧
    parseSource "graph.rs" (argumentBlock "Graph" "fn(u8)".toList " fn len() \x7b\x7d ".toList) =
      .ofDiagnostic (.ofFault "graph.rs" 1
        (.malformedSignature "unexpected '(u8)' after generic argument 'fn'") none) := by
  have hinner : Bracket.curly.IsBalanced " fn len() \x7b\x7d ".toList := by decide +kernel
  have htypes : IsNested "Vec<u8>, 'a".toList := by decide
  have hcall : IsNested "fn(u8)".toList := by decide
  have htype : TypeExpr.ofText ("Graph".toList ++ argumentList "Vec<u8>, 'a".toList) =
      .ok (.named "Graph" [.type (.named "Vec" [.type (.named "u8" [])]), .lifetime "'a"]) := by
    decide +kernel
  exact ⟨(parseSource_argumentBlock "graph.rs" isOwner_graph htypes (by decide) hinner).1 _ htype,
    ((parseSource_argumentBlock "graph.rs" isOwner_graph hcall (by decide) hinner).2 _
      ofText_graph_call).1⟩

/-- The check of an owner passes, though none of its functions was read. -/
theorem exitCode_argumentBlock_call :
    let args := "fn(u8)".toList
    let inner := "\n    pub fn len(&self) -> usize \x7b 0 \x7d\n".toList
    let o := parseSource "graph.rs" (argumentBlock "Graph" args inner)
    IsOwner "Graph".toList ∧ IsNested args ∧ (∀ c ∈ args, c ∉ ['\x7b', ';', '\r', '\n']) ∧
      lastAfter start args ≠ '-' ∧ Bracket.curly.IsBalanced inner ∧ o.records = [] ∧
      (∃ d ∈ o.diagnostics, d.line = 1 ∧ d.kind = "MalformedSignature") ∧
      (∀ d ∈ o.diagnostics, d.owner ≠ some "Graph") ∧
      ((DocRules.mk "Graph" [] []).checkOutcome o).unparsed = [] ∧
      ((DocRules.mk "Graph" [] []).checkOutcome o).exitCode = 0 := by
  intro args inner o
  have hargs : IsNested args := by decide
  have hinner : Bracket.curly.IsBalanced inner := by decide +kernel
  have ho : o = .ofDiagnostic (.ofFault "graph.rs" 1 _ none) :=
    parseSource_of_ofText_eq_error "graph.rs" isOwner_graph hargs (by decide) hinner ofText_graph_call
  rw [ho]
  refine ⟨isOwner_graph, hargs, by decide, by decide, hinner, rfl,
    ⟨_, List.mem_singleton_self _, rfl, rfl⟩, ?_, DocRules.checkOutcome_of_owner_none _ rfl⟩
  intro d hd
  rw [List.mem_singleton.1 hd]
  intro howner
  cases howner

end ApiSurface
