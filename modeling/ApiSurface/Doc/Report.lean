import ApiSurface.Doc.Finding
import ApiSurface.NameMap

namespace ApiSurface

structure DocRules where
  targetType : String
  suppressed : List String
  ignored : List String
  deriving DecidableEq, Repr

structure DocReport where
  targetType : String
  /-- The findings of each function that has some. -/
  findings : NameMap (List Finding)
  signatures : NameMap String
  checked : Nat
  suppressed : Nat
  /-- The items of the type that could not be read. -/
  unparsed : List Diagnostic
  deriving DecidableEq, Repr

namespace DocReport

/-- No findings, and every item of the type was read. -/
def isClean (r : DocReport) : Bool := r.findings.isEmpty && r.unparsed.isEmpty

def totalFindings (r : DocReport) : Nat := r.findings.values.flatten.length

def exitCode (r : DocReport) : Nat := if r.isClean then 0 else 1

end DocReport

namespace DocRules

def appliesTo (rules : DocRules) (r : FunctionRecord) : Bool :=
  r.signature.isPublic && r.owner == some rules.targetType && !rules.ignored.contains r.name

def keeps (rules : DocRules) (f : Finding) : Bool := !rules.suppressed.contains f.kindName

def keptFindings (rules : DocRules) (r : FunctionRecord) : List Finding :=
  r.findings.filter rules.keeps

/-- Adds the kept findings of a function to those of its namesakes before it. -/
def addFindings (rules : DocRules) (m : NameMap (List Finding)) (r : FunctionRecord) :
    NameMap (List Finding) :=
  if (rules.keptFindings r).isEmpty then m
  else m.alter r.name fun before => before.getD [] ++ rules.keptFindings r

/-- Notes the signature of a function with kept findings, unless a namesake before it had some. -/
def addSignature (rules : DocRules) (m : NameMap String) (r : FunctionRecord) : NameMap String :=
  if (rules.keptFindings r).isEmpty then m else m.insertNew r.name (toString r.signature)

def check (rules : DocRules) (records : List FunctionRecord) : DocReport :=
  let applicable := records.filter rules.appliesTo
  { targetType := rules.targetType
    findings := applicable.foldl rules.addFindings ∅
    signatures := applicable.foldl rules.addSignature ∅
    checked := applicable.length
    suppressed := (applicable.flatMap fun r => r.findings.filter (!rules.keeps ·)).length
    unparsed := [] }

def checkOutcome (rules : DocRules) (o : Outcome) : DocReport :=
  { rules.check o.records with
    unparsed := o.diagnostics.filter fun d => d.owner == some rules.targetType }

end DocRules

end ApiSurface
