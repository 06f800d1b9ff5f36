import ApiSurface.Source.Piece

namespace ApiSurface

open Text

structure Diagnostic where
  file : String
  /-- The line the item begins on, the first being 1. -/
  line : Nat
  kind : String
  message : String
  /-- The type the item belongs to, as far as it could be told. -/
  owner : Option String
  deriving DecidableEq, Repr

def Diagnostic.ofFault (file : String) (line : Nat) (fault : Fault) (owner : Option String) :
    Diagnostic :=
  ⟨file, line, fault.kindName, fault.message, owner⟩

/-- The functions and the diagnostics, each in the order of the text. -/
structure Outcome where
  records : List FunctionRecord
  diagnostics : List Diagnostic
  deriving DecidableEq, Repr

namespace Outcome

def empty : Outcome := ⟨[], []⟩

instance : Append Outcome :=
  ⟨fun a b => ⟨a.records ++ b.records, a.diagnostics ++ b.diagnostics⟩⟩

def ofRecord (record : FunctionRecord) : Outcome := ⟨[record], []⟩

def ofDiagnostic (diagnostic : Diagnostic) : Outcome := ⟨[], [diagnostic]⟩

/-- What `s` holds, from line `line` on, in a block of `owner` and below the doc lines `docs`. -/
def ofText (file : String) (owner : Option String) (line : Nat) (docs : List String)
    (s : List Char) : Outcome :=
  if _hs : trimStart s = [] then empty
  else
    let line := lineAt line s (trimStart s)
    let report := Diagnostic.ofFault file line
    match _h : Piece.next (trimStart s) with
    | (piece, rest) =>
      let lineAfter := lineAt line (trimStart s) rest
      match piece with
      | .docLine text => ofText file owner lineAfter (docs ++ [text]) rest
      | .remark => ofText file owner lineAfter docs rest
      | .openAttribute fault =>
        ofDiagnostic (report fault owner) ++ ofText file owner lineAfter docs rest
      | .function item =>
        ofRecord ⟨item.signature, docs, item.body, owner, file, line⟩ ++
          ofText file owner lineAfter [] rest
      | .ownerBlock blockOwner feeds inner =>
        ofText file (some blockOwner) (line + feeds) [] inner ++ ofText file owner lineAfter [] rest
      | .rejected fault itemOwner =>
        ofDiagnostic (report fault (itemOwner <|> owner)) ++ ofText file owner lineAfter [] rest
      | .other => ofText file owner lineAfter [] rest
termination_by s.length
decreasing_by
  all_goals
    have ht := length_trimStart_le s
    have hn := (Piece.next_advances _hs).2
    rw [_h] at hn
  any_goals exact Nat.lt_of_lt_of_le hn ht
  exact Nat.lt_of_lt_of_le (Piece.length_inner_lt _h) ht

end Outcome

/-- The functions of a source text and what could not be read of it. -/
def parseSource (file : String) (text : List Char) : Outcome := Outcome.ofText file none 1 [] text

end ApiSurface
