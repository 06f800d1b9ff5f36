import ApiSurface.TypeExpr.Printer

namespace ApiSurface

inductive Parameter where
  /-- The leading `self` with its modifiers. A type given to it is not kept. -/
  | receiver (modifiers : Modifiers)
  | typed (name : String) (type : TypeExpr)
  deriving DecidableEq, Repr

namespace Parameter

def selfWord : List Char := "self".toList

def isReceiver : Parameter → Bool
  | .receiver _ => true
  | .typed .. => false

def name : Parameter → String
  | .receiver _ => String.ofList selfWord
  | .typed name _ => name

def chars : Parameter → List Char
  | .receiver modifiers => modifiers.chars ++ selfWord
  | .typed name type => name.toList ++ ": ".toList ++ type.chars

instance : ToString Parameter := ⟨fun p => String.ofList p.chars⟩

end Parameter

end ApiSurface
