namespace ApiSurface

inductive Level where
  | error
  | warn
  | info
  deriving DecidableEq, Repr

def Level.name : Level → String
  | .error => "ERROR"
  | .warn => "WARN"
  | .info => "INFO"

structure LogEvent where
  level : Level
  event : String
  detail : String
  deriving DecidableEq, Repr

/-- Characters outside ASCII whose capitals are within it. -/
def foreignCapitals : List (Char × List Char) :=
  [('ß', ['S', 'S']), ('ı', ['I']), ('ſ', ['S']), ('ﬀ', ['F', 'F']), ('ﬁ', ['F', 'I']),
   ('ﬂ', ['F', 'L']), ('ﬃ', ['F', 'F', 'I']), ('ﬄ', ['F', 'F', 'L']), ('ﬅ', ['S', 'T']),
   ('ﬆ', ['S', 'T'])]

/-- The capitals of a character as far as they lie within ASCII; any other character stays. -/
def capitals (c : Char) : List Char := (foreignCapitals.lookup c).getD [c.toUpper]

namespace Level

def ofEvent (event : String) : Level :=
  match String.ofList (event.toList.flatMap capitals) with
  | "ERROR" => .error
  | "WARN" | "WARNING" => .warn
  | _ => .info

end Level

def logEvent (event detail : String) : LogEvent := ⟨.ofEvent event, event, detail⟩

end ApiSurface
