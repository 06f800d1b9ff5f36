namespace ApiSurface.Toml

/-- How a table came to be, which decides what may still be added: a header opens a table once, a dotted
name enters only tables that dotted names made, and a table in braces is closed. -/
inductive Origin where
  /-- It was on the way to the table of a header. -/
  | passage
  | header
  /-- It was on the way of a dotted name. -/
  | dotted
  | braces
  deriving DecidableEq, Repr

inductive Value where
  | text (text : String)
  /-- A number, a truth value or a date, as it is written. -/
  | bare (token : String)
  | array (items : List Value)
  | table (origin : Origin) (entries : List (String × Value))
  /-- The entries of the tables that headers in double brackets opened, the last one first. -/
  | tables (last : List (String × Value)) (before : List (List (String × Value)))
  deriving Inhabited, Repr

abbrev Entries := List (String × Value)

namespace Entries

/-- The entries with `value` under `key`, in place of what was there. -/
def put (key : String) (value : Value) : Entries → Entries
  | [] => [(key, value)]
  | (k, old) :: rest => if k = key then (k, value) :: rest else (k, old) :: put key value rest

/-- A new entry; a name that is there already is refused. -/
def add (key : String) (value : Value) (entries : Entries) : Option Entries :=
  if (entries.lookup key).isSome then none else some (put key value entries)

/-- Changes the table at the end of a way that headers take: through the last of several tables,
never into one in braces. Tables that are missing are made. -/
def changeAt (change : Entries → Option Entries) : (way : List String) → Entries → Option Entries
  | [], entries => change entries
  | key :: way, entries => do
    let value ←
      match entries.lookup key with
      | none => (changeAt change way []).map (.table .passage)
      | some (.table .braces _) => none
      | some (.table origin inner) => (changeAt change way inner).map (.table origin)
      | some (.tables last before) => (changeAt change way last).map (.tables · before)
      | some _ => none
    return put key value entries

/-- Adds a value under a dotted name. -/
def addDotted (key : String) (more : List String) (value : Value) (entries : Entries) :
    Option Entries :=
  match more with
  | [] => add key value entries
  | next :: more => do
    let inner ←
      match entries.lookup key with
      | none => some []
      | some (.table .dotted inner) => some inner
      | some _ => none
    return put key (.table .dotted (← addDotted next more value inner)) entries

def openTable (key : String) (entries : Entries) : Option Entries :=
  match entries.lookup key with
  | none => some (put key (.table .header []) entries)
  | some (.table .passage inner) => some (put key (.table .header inner) entries)
  | some _ => none

/-- Opens one more table of a header in double brackets. -/
def openNext (key : String) (entries : Entries) : Option Entries :=
  match entries.lookup key with
  | none => some (put key (.tables [] []) entries)
  | some (.tables last before) => some (put key (.tables [] (last :: before)) entries)
  | some _ => none

end Entries

end ApiSurface.Toml
