import ApiSurface.Doc.Report
import ApiSurface.Proofs.NameMap
import Mathlib.Data.List.Basic

namespace ApiSurface

namespace DocRules

variable (rules : DocRules)

/-- The findings of the functions called `name`, one function after the other, less those of
suppressed kinds. -/
def findingsUnder (records : List FunctionRecord) (name : String) : List Finding :=
  (records.filter (·.name = name)).flatMap fun r =>
    r.findings.filter (·.kindName ∉ rules.suppressed)

/-- The first function called `name` that has a finding of a kind that is not suppressed. -/
def firstUnder? (records : List FunctionRecord) (name : String) : Option FunctionRecord :=
  records.find? fun r => r.name = name ∧ ∃ f ∈ r.findings, f.kindName ∉ rules.suppressed

/-- The same type, with more or other kinds and names left out. -/
def leavingOut (suppressed ignored : List String) : DocRules :=
  ⟨rules.targetType, suppressed, ignored⟩

end DocRules

/-- What a report tells of the functions that the rules apply to. -/
structure DocReport.Tells (report : DocReport) (rules : DocRules) (applicable : List FunctionRecord) :
    Prop where
  findings : ∀ name, report.findings.get? name =
    if rules.findingsUnder applicable name = [] then none
    else some (rules.findingsUnder applicable name)
  signatureNames : report.signatures.keys = report.findings.keys
  signatures : ∀ name, report.signatures.get? name =
    (rules.firstUnder? applicable name).map fun r => toString r.signature
  checked : report.checked = applicable.length
  total : report.totalFindings + report.suppressed =
    (applicable.flatMap FunctionRecord.findings).length

namespace DocRules

variable {rules : DocRules} {r : FunctionRecord} {records : List FunctionRecord} {name : String}
  {m : NameMap (List Finding)} {o : Outcome}

theorem keeps_iff {f : Finding} : rules.keeps f = true ↔ f.kindName ∉ rules.suppressed := by
  simp [keeps]

theorem keptFindings_eq (rules : DocRules) (r : FunctionRecord) :
    rules.keptFindings r = r.findings.filter (·.kindName ∉ rules.suppressed) := by
  rw [keptFindings]
  apply List.filter_congr
  intro f _
  rw [Bool.eq_iff_iff, keeps_iff, decide_eq_true_iff]

theorem keptFindings_eq_nil_iff :
    rules.keptFindings r = [] ↔ ∀ f ∈ r.findings, f.kindName ∈ rules.suppressed := by
  simp [keptFindings_eq]

theorem findingsUnder_cons : rules.findingsUnder (r :: records) name =
    (if r.name = name then rules.keptFindings r else []) ++ rules.findingsUnder records name := by
  by_cases hn : r.name = name <;> simp [findingsUnder, keptFindings_eq, hn]

section Findings

theorem addFindings_of_eq_nil (hk : rules.keptFindings r = []) : rules.addFindings m r = m := by
  simp [addFindings, hk]

theorem addFindings_of_ne_nil (hk : rules.keptFindings r ≠ []) : rules.addFindings m r =
    m.alter r.name fun before => before.getD [] ++ rules.keptFindings r := by
  simp [addFindings, hk]

/-- One function adds its kept findings to what stands under its name. -/
theorem getD_addFindings : ((rules.addFindings m r).get? name).getD [] =
    (m.get? name).getD [] ++ if r.name = name then rules.keptFindings r else [] := by
  by_cases hk : rules.keptFindings r = []
  · simp [addFindings_of_eq_nil hk, hk]
  · rw [addFindings_of_ne_nil hk, NameMap.get?_alter]
    by_cases hn : r.name = name
    · simp [hn]
    · have hn' : ¬name = r.name := fun he => hn he.symm
      simp [hn, hn']

/-- No name is left with an empty list. -/
theorem addFindings_ne_some_nil (hm : ∀ name, m.get? name ≠ some []) (name : String) :
    (rules.addFindings m r).get? name ≠ some [] := by
  by_cases hk : rules.keptFindings r = []
  · rw [addFindings_of_eq_nil hk]
    exact hm name
  · rw [addFindings_of_ne_nil hk, NameMap.get?_alter]
    by_cases hn : name = r.name
    · simp [hn, hk]
    · simpa [hn] using hm name

theorem length_addFindings : (rules.addFindings m r).values.flatten.length =
    m.values.flatten.length + (rules.keptFindings r).length := by
  by_cases hk : rules.keptFindings r = []
  · simp [addFindings_of_eq_nil hk, hk]
  · rw [addFindings_of_ne_nil hk]
    exact NameMap.length_alterEntries_append r.name (rules.keptFindings r) m.entries

theorem getD_foldl_addFindings (records : List FunctionRecord) (m : NameMap (List Finding)) :
    ((records.foldl rules.addFindings m).get? name).getD [] =
      (m.get? name).getD [] ++ rules.findingsUnder records name := by
  induction records generalizing m with
  | nil => simp [findingsUnder]
  | cons r records ih =>
    rw [List.foldl_cons, ih, getD_addFindings, findingsUnder_cons, List.append_assoc]

theorem foldl_addFindings_ne_some_nil (records : List FunctionRecord)
    (hm : ∀ name, m.get? name ≠ some []) (name : String) :
    (records.foldl rules.addFindings m).get? name ≠ some [] := by
  induction records generalizing m with
  | nil => exact hm name
  | cons r records ih => exact ih (addFindings_ne_some_nil hm)

theorem length_foldl_addFindings (records : List FunctionRecord) (m : NameMap (List Finding)) :
    (records.foldl rules.addFindings m).values.flatten.length =
      m.values.flatten.length + (records.flatMap rules.keptFindings).length := by
  induction records generalizing m with
  | nil => simp
  | cons r records ih =>
    rw [List.foldl_cons, ih, length_addFindings, List.flatMap_cons, List.length_append]
    omega

theorem get?_foldl_addFindings (records : List FunctionRecord) (name : String) :
    (records.foldl rules.addFindings ∅).get? name =
      if rules.findingsUnder records name = [] then none
      else some (rules.findingsUnder records name) := by
  have hempty : ∀ name, (∅ : NameMap (List Finding)).get? name ≠ some [] := by
    intro name
    simp [NameMap.get?_empty]
  have hne : (records.foldl rules.addFindings ∅).get? name ≠ some [] :=
    foldl_addFindings_ne_some_nil records hempty name
  have hall : ((records.foldl rules.addFindings ∅).get? name).getD [] =
      rules.findingsUnder records name := by
    rw [getD_foldl_addFindings, NameMap.get?_empty, Option.getD_none, List.nil_append]
  rw [← hall]
  cases hget : (records.foldl rules.addFindings ∅).get? name with
  | none => simp
  | some findings =>
    have hf : findings ≠ [] := by
      rintro rfl
      exact hne hget
    simp [hf]

end Findings

section Signatures

variable {m : NameMap String}

theorem firstUnder?_singleton (r : FunctionRecord) (name : String) : rules.firstUnder? [r] name =
    if r.name = name ∧ rules.keptFindings r ≠ [] then some r else none := by
  rw [firstUnder?, List.find?_singleton]
  simp [keptFindings_eq_nil_iff]

theorem firstUnder?_cons (r : FunctionRecord) (records : List FunctionRecord) (name : String) :
    rules.firstUnder? (r :: records) name =
      (rules.firstUnder? [r] name).or (rules.firstUnder? records name) := by
  rw [firstUnder?, firstUnder?, firstUnder?, List.find?_cons, List.find?_cons]
  split <;> rfl

/-- One function gives its signature to its name, if it has kept findings and the name has none. -/
theorem get?_addSignature : (rules.addSignature m r).get? name =
    (m.get? name).or ((rules.firstUnder? [r] name).map fun r => toString r.signature) := by
  rw [addSignature, firstUnder?_singleton]
  by_cases hk : rules.keptFindings r = []
  · simp [hk]
  · have hempty : ¬(rules.keptFindings r).isEmpty = true := by simpa using hk
    rw [if_neg hempty, NameMap.get?_insertNew]
    by_cases hn : r.name = name
    · simp [hn, hk]
    · have hn' : ¬name = r.name := fun he => hn he.symm
      simp [hn, hn']

theorem get?_foldl_addSignature (records : List FunctionRecord) (m : NameMap String) :
    (records.foldl rules.addSignature m).get? name =
      (m.get? name).or ((rules.firstUnder? records name).map fun r => toString r.signature) := by
  induction records generalizing m with
  | nil => simp [firstUnder?]
  | cons r records ih =>
    rw [List.foldl_cons, ih, get?_addSignature, firstUnder?_cons r records, Option.or_assoc,
      Option.map_or]

theorem findingsUnder_eq_nil_iff : rules.findingsUnder records name = [] ↔
    ∀ r ∈ records, r.name = name → ∀ f ∈ r.findings, f.kindName ∈ rules.suppressed := by
  simp [findingsUnder]

/-- A name has a function with kept findings if and only if there are kept findings under it. -/
theorem firstUnder?_eq_none_iff :
    rules.firstUnder? records name = none ↔ rules.findingsUnder records name = [] := by
  simp [firstUnder?, findingsUnder_eq_nil_iff]

end Signatures

/-- A finding is either kept or counted as suppressed. -/
theorem length_flatMap_keptFindings (rules : DocRules) (records : List FunctionRecord) :
    (records.flatMap rules.keptFindings).length +
        (records.flatMap fun r => r.findings.filter (!rules.keeps ·)).length =
      (records.flatMap FunctionRecord.findings).length := by
  have hkept : records.flatMap rules.keptFindings =
      (records.flatMap FunctionRecord.findings).filter rules.keeps := List.filter_flatMap.symm
  have hrest : (records.flatMap fun r => r.findings.filter (!rules.keeps ·)) =
      (records.flatMap FunctionRecord.findings).filter (!rules.keeps ·) := List.filter_flatMap.symm
  rw [hkept, hrest]
  exact (List.length_eq_length_filter_add _).symm

theorem check_tells (rules : DocRules) (records : List FunctionRecord) :
    (rules.check records).Tells rules (records.filter rules.appliesTo) where
  findings := get?_foldl_addFindings _
  signatureNames := by
    apply NameMap.keys_eq_keys
    intro name
    rw [check, get?_foldl_addSignature, get?_foldl_addFindings, NameMap.get?_empty, Option.none_or,
      Option.isSome_map]
    split
    · rename_i hnil
      rw [firstUnder?_eq_none_iff.2 hnil]
      rfl
    · rename_i hne
      exact Option.isSome_iff_ne_none.2 (mt firstUnder?_eq_none_iff.1 hne)
  signatures := by
    intro name
    rw [check, get?_foldl_addSignature, NameMap.get?_empty, Option.none_or]
  checked := rfl
  total := by
    have hempty : (∅ : NameMap (List Finding)).values.flatten.length = 0 := rfl
    rw [DocReport.totalFindings, check, length_foldl_addFindings, hempty, Nat.zero_add]
    exact length_flatMap_keptFindings rules _

theorem isEmpty_findings_iff : (rules.check records).findings.isEmpty = true ↔
    ∀ r ∈ records, rules.appliesTo r = true → ∀ f ∈ r.findings, f.kindName ∈ rules.suppressed := by
  have hnone : ∀ name, (rules.check records).findings.get? name = none ↔
      rules.findingsUnder (records.filter rules.appliesTo) name = [] := by
    intro name
    rw [(rules.check_tells records).findings name]
    split <;> simp_all
  rw [NameMap.isEmpty_iff]
  simp only [hnone, findingsUnder_eq_nil_iff, List.mem_filter]
  constructor
  · intro h r hr ha
    exact h r.name r ⟨hr, ha⟩ rfl
  · intro h name r hr _
    exact h r hr.1 hr.2

theorem exitCode_eq_zero_iff {report : DocReport} :
    report.exitCode = 0 ↔ report.findings.isEmpty = true ∧ report.unparsed = [] := by
  simp [DocReport.exitCode, DocReport.isClean]

/-- The exit code is zero if and only if all findings are suppressed and every item was read. -/
theorem exitCode_checkOutcome_iff : (rules.checkOutcome o).exitCode = 0 ↔
    (∀ r ∈ o.records, rules.appliesTo r = true → ∀ f ∈ r.findings, f.kindName ∈ rules.suppressed) ∧
      ∀ d ∈ o.diagnostics, d.owner ≠ some rules.targetType := by
  rw [exitCode_eq_zero_iff]
  exact and_congr isEmpty_findings_iff (by simp [checkOutcome])

theorem appliesTo_iff : rules.appliesTo r = true ↔
    r.signature.isPublic = true ∧ r.owner = some rules.targetType ∧ r.name ∉ rules.ignored := by
  simp [appliesTo, and_assoc]

/-- What is clean stays clean when more kinds or names are left out. -/
theorem exitCode_leavingOut {suppressed ignored : List String} (hs : rules.suppressed ⊆ suppressed)
    (hi : rules.ignored ⊆ ignored) (h : (rules.checkOutcome o).exitCode = 0) :
    ((rules.leavingOut suppressed ignored).checkOutcome o).exitCode = 0 := by
  obtain ⟨hall, hread⟩ := exitCode_checkOutcome_iff.1 h
  refine exitCode_checkOutcome_iff.2 ⟨?_, hread⟩
  intro r hr ha f hf
  obtain ⟨hpublic, howner, hname⟩ := appliesTo_iff.1 ha
  have happlies : rules.appliesTo r = true :=
    appliesTo_iff.2 ⟨hpublic, howner, fun hm => hname (hi hm)⟩
  exact hs (hall r hr happlies f hf)

/-- An item of the type that was not read fails the check, whatever is left out. -/
theorem exitCode_of_mem_diagnostics {d : Diagnostic} (hd : d ∈ o.diagnostics)
    (howner : d.owner = some rules.targetType) : (rules.checkOutcome o).exitCode = 1 := by
  have hne : (rules.checkOutcome o).exitCode ≠ 0 := by
    intro h
    exact (exitCode_checkOutcome_iff.1 h).2 d hd howner
  have hclean : (rules.checkOutcome o).isClean = false := by
    simpa [DocReport.exitCode] using hne
  simp [DocReport.exitCode, hclean]

/-- The check filters the findings of the applicable functions and nothing else. Leaving out more
never makes it fail, and leaving out anything never hides an item of the type that was not read. -/
theorem checkOutcome_filters (rules : DocRules) (o : Outcome) :
    (rules.check o.records).Tells rules (o.records.filter rules.appliesTo) ∧
    (∀ suppressed, let other := rules.leavingOut suppressed rules.ignored
      (other.check o.records).totalFindings + (other.check o.records).suppressed =
        (rules.check o.records).totalFindings + (rules.check o.records).suppressed) ∧
    ((rules.checkOutcome o).exitCode = 0 ↔
      (∀ r ∈ o.records.filter rules.appliesTo, ∀ f ∈ r.findings, f.kindName ∈ rules.suppressed) ∧
        ∀ d ∈ o.diagnostics, d.owner ≠ some rules.targetType) ∧
    ∀ suppressed ignored,
      (rules.suppressed ⊆ suppressed → rules.ignored ⊆ ignored →
        (rules.checkOutcome o).exitCode = 0 →
          ((rules.leavingOut suppressed ignored).checkOutcome o).exitCode = 0) ∧
      ∀ d ∈ o.diagnostics, d.owner = some rules.targetType →
        ((rules.leavingOut suppressed ignored).checkOutcome o).exitCode = 1 := by
  refine ⟨check_tells rules o.records, ?_, ?_, ?_⟩
  · intro suppressed other
    rw [(check_tells rules o.records).total, (check_tells other o.records).total]
    rfl
  · rw [exitCode_checkOutcome_iff]
    simp [and_imp]
  · intro suppressed ignored
    refine ⟨exitCode_leavingOut, ?_⟩
    intro d hd howner
    apply exitCode_of_mem_diagnostics hd
    exact howner

theorem checkOutcome_filters_put :
    let rules : DocRules := ⟨"Store", ["MissingDocumentation"], []⟩
    let put : FunctionRecord := ⟨⟨"put", "pub", [], [], [], none⟩, [], "", some "Store", "a.rs", 2⟩
    let lost : Diagnostic :=
      ⟨"a.rs", 5, "InvalidIdentifier", "invalid identifier at '9'", some "Store"⟩
    (rules.checkOutcome ⟨[put], []⟩).exitCode = 0 ∧
      ((rules.leavingOut ["MissingRaisesSection", "MissingDocumentation"] ["get"]).checkOutcome
        ⟨[put], []⟩).exitCode = 0 ∧
      ((rules.leavingOut Finding.kinds ["put"]).checkOutcome ⟨[put], [lost]⟩).exitCode = 1 := by
  intro rules put lost
  have hclean : (rules.checkOutcome ⟨[put], []⟩).exitCode = 0 := by decide +kernel
  have hmore : rules.suppressed ⊆ ["MissingRaisesSection", "MissingDocumentation"] := by decide
  have hless := (checkOutcome_filters rules ⟨[put], []⟩).2.2.2
    ["MissingRaisesSection", "MissingDocumentation"] ["get"]
  have hlost := (checkOutcome_filters rules ⟨[put], [lost]⟩).2.2.2 Finding.kinds ["put"]
  exact ⟨hclean, hless.1 hmore (List.nil_subset _) hclean,
    hlost.2 lost (List.mem_singleton_self lost) rfl⟩

end DocRules

end ApiSurface
