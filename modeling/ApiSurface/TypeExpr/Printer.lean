import ApiSurface.Modifiers
import ApiSurface.TypeExpr

namespace ApiSurface

mutual

def TypeExpr.chars : TypeExpr → List Char
  | .named name [] => name.toList
  | .named name (g :: gs) =>
    name.toList ++ '<' :: g.chars ++ GenericArg.charsAfter ", ".toList gs ++ ['>']
  | .reference isMutable lifetime inner =>
    '&' :: Modifiers.qualifierChars lifetime isMutable ++ inner.chars
  | .implBound bounds => "impl ".toList ++ GenericArg.boundChars bounds
  | .dynBound bounds => "dyn ".toList ++ GenericArg.boundChars bounds
  | .tuple [t] => '(' :: t.chars ++ ",)".toList
  | .tuple elements => '(' :: TypeExpr.listChars elements ++ [')']
  | .slice inner => '[' :: inner.chars ++ [']']
  | .array inner length => '[' :: inner.chars ++ "; ".toList ++ length.toList ++ [']']
  | .pointer isMutable inner =>
    (if isMutable then "*mut ".toList else "*const ".toList) ++ inner.chars
  | .fnTrait kind params none => kind.toList ++ '(' :: TypeExpr.listChars params ++ [')']
  | .fnTrait kind params (some result) =>
    kind.toList ++ '(' :: TypeExpr.listChars params ++ ") -> ".toList ++ result.chars
termination_by structural t => t

def GenericArg.chars : GenericArg → List Char
  | .type type => type.chars
  | .lifetime name => name.toList
  | .binding name type => name.toList ++ " = ".toList ++ type.chars
termination_by structural a => a

/-- The arguments each with `sep` before it. -/
def GenericArg.charsAfter (sep : List Char) : List GenericArg → List Char
  | [] => []
  | a :: rest => sep ++ a.chars ++ GenericArg.charsAfter sep rest
termination_by structural as => as

def GenericArg.boundChars : List GenericArg → List Char
  | [] => []
  | a :: rest => a.chars ++ GenericArg.charsAfter " + ".toList rest
termination_by structural as => as

/-- The types each with a comma before it. -/
def TypeExpr.charsAfter : List TypeExpr → List Char
  | [] => []
  | t :: rest => ", ".toList ++ t.chars ++ TypeExpr.charsAfter rest
termination_by structural ts => ts

def TypeExpr.listChars : List TypeExpr → List Char
  | [] => []
  | t :: rest => t.chars ++ TypeExpr.charsAfter rest
termination_by structural ts => ts

end

-- The equations take long to make, and the first proofs that ask for them would all wait: they are
-- made here.
attribute [grind =] TypeExpr.chars GenericArg.chars

instance : ToString TypeExpr := ⟨fun t => String.ofList t.chars⟩

instance : ToString GenericArg := ⟨fun a => String.ofList a.chars⟩

end ApiSurface
