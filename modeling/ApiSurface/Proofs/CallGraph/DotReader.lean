import ApiSurface.Proofs.Text

namespace ApiSurface.Dot

open Text

inductive Token where
  | word (letters : List Char)
  | quoted (text : List Char)
  | mark (c : Char)
  deriving DecidableEq, Repr

/-- What a reader stands in, with what it has read of it. -/
inductive Mode where
  | between
  | word (letters : List Char)
  | slash
  | remark
  | quoted (text : List Char)
  /-- Behind a backslash in quoted text. -/
  | escaped (text : List Char)
  deriving DecidableEq, Repr

def stepBetween (c : Char) : List Token × Mode :=
  if isBlank c then ([], .between)
  else if c = '"' then ([], .quoted [])
  else if c = '/' then ([], .slash)
  else if isWordChar c then ([], .word [c])
  else ([.mark c], .between)

/-- The tokens that end at `c`, and what the reader stands in after it. -/
def step : Mode → Char → List Token × Mode
  | .between, c => stepBetween c
  | .word letters, c =>
    if isWordChar c then ([], .word (letters ++ [c]))
    else (.word letters :: (stepBetween c).1, (stepBetween c).2)
  | .slash, c => if c = '/' then ([], .remark) else (.mark '/' :: (stepBetween c).1, (stepBetween c).2)
  | .remark, c => ([], if c = '\n' then .between else .remark)
  | .quoted text, c =>
    if c = '"' then ([.quoted text], .between)
    else if c = '\\' then ([], .escaped text)
    else ([], .quoted (text ++ [c]))
  -- A backslash takes its meaning from a quote or a backslash after it only.
  | .escaped text, c =>
    if c = '"' ∨ c = '\\' then ([], .quoted (text ++ [c])) else ([], .quoted (text ++ ['\\', c]))

def run : Mode → List Char → List Token × Mode
  | mode, [] => ([], mode)
  | mode, c :: s => Prod.map ((step mode c).1 ++ ·) id (run (step mode c).2 s)

/-- The tokens of a text; none if it ends inside one. -/
def tokens? (s : List Char) : Option (List Token) :=
  match run .between s with
  | (found, .between) => some found
  | _ => none

def Token.text? : Token → Option String
  | .word letters => some (String.ofList letters)
  | .quoted text => some (String.ofList text)
  | .mark _ => none

/-- Attributes up to the bracket that closes their list. -/
def attributes? : List Token → Option (List (String × String))
  | .word name :: .mark '=' :: value :: .mark ',' :: rest => do
    return (String.ofList name, ← value.text?) :: (← attributes? rest)
  | [.word name, .mark '=', value, .mark ']'] => do return [(String.ofList name, ← value.text?)]
  | _ => none

structure Node where
  name : String
  category : String
  /-- Whether the node is drawn with a double outline. -/
  isOutlined : Bool
  deriving DecidableEq, Repr

inductive Statement where
  /-- An attribute of the graph, or a default of its nodes. -/
  | setting
  | node (node : Node)
  | edge (source target : String)
  deriving DecidableEq, Repr

def statement? : List Token → Option Statement
  | [.word _, .mark '=', .word _] => some .setting
  | .word _ :: .mark '[' :: list => (attributes? list).map fun _ => .setting
  | .quoted name :: .mark '[' :: list => do
    let attributes ← attributes? list
    return .node ⟨String.ofList name, ← attributes.lookup "category",
      attributes.lookup "peripheries" == some "2"⟩
  | [.quoted source, .mark '-', .mark '>', .quoted target] =>
    some (.edge (String.ofList source) (String.ofList target))
  | _ => none

/-- The nodes and the edges that a text draws, each in the order of the text. -/
structure Drawing where
  nodes : List Node
  edges : List (String × String)
  deriving DecidableEq, Repr

def Drawing.add (d : Drawing) : Statement → Drawing
  | .setting => d
  | .node node => { d with nodes := node :: d.nodes }
  | .edge source target => { d with edges := (source, target) :: d.edges }

def isSemicolon (t : Token) : Bool := t == .mark ';'

/-- Statements up to the brace that closes the graph. -/
def drawing? : List (List Token) → Option Drawing
  | [[.mark '\x7d']] => some ⟨[], []⟩
  | first :: rest => do return (← drawing? rest).add (← statement? first)
  | [] => none

def read (s : List Char) : Option Drawing := do
  match ← tokens? s with
  | .word kind :: .word _ :: .mark '\x7b' :: body =>
    if kind = "digraph".toList then drawing? (body.splitOnP isSemicolon) else none
  | _ => none

/-- Reading `s` in one mode gives tokens and leaves the reader in another mode. -/
def Scans (mode : Mode) (s : List Char) (found : List Token) (mode' : Mode) : Prop :=
  run mode s = (found, mode')

namespace Scans

variable {mode mode' mode'' : Mode} {s t : List Char} {found more : List Token}

theorem nil (mode : Mode) : Scans mode [] [] mode := rfl

theorem cons {c : Char} (hc : step mode c = (found, mode')) (h : Scans mode' s more mode'') :
    Scans mode (c :: s) (found ++ more) mode'' := by
  rw [Scans, run, hc, h]
  rfl

theorem append (hs : Scans mode s found mode') (ht : Scans mode' t more mode'') :
    Scans mode (s ++ t) (found ++ more) mode'' := by
  induction s generalizing mode found with
  | nil =>
    obtain ⟨rfl, rfl⟩ := Prod.mk.inj (hs : ([], mode) = (found, mode'))
    exact ht
  | cons c s ih =>
    rw [Scans, run] at hs
    obtain ⟨rfl, rfl⟩ := Prod.mk.inj hs
    change Scans mode (c :: (s ++ t)) ((step mode c).1 ++ (run (step mode c).2 s).1 ++ more) mode''
    rw [List.append_assoc]
    exact cons rfl (ih rfl)

/-- A text of lines, each with its tokens. -/
theorem flatMap {α : Type} {line : α → List Char} {told : α → List Token} {l : List α}
    (h : ∀ a ∈ l, Scans .between (line a) (told a) .between) :
    Scans .between (l.flatMap line) (l.flatMap told) .between := by
  induction l with
  | nil => exact nil _
  | cons a l ih =>
    have hmore := ih fun b hb => h b (List.mem_cons_of_mem a hb)
    rw [List.flatMap_cons, List.flatMap_cons]
    exact (h a List.mem_cons_self).append hmore

/-- Word characters go on a word. -/
theorem word (letters : List Char) (h : ∀ c ∈ s, isWordChar c = true) :
    Scans (.word letters) s [] (.word (letters ++ s)) := by
  induction s generalizing letters with
  | nil =>
    rw [List.append_nil]
    exact nil _
  | cons c s ih =>
    have hc : step (.word letters) c = ([], .word (letters ++ [c])) :=
      if_pos (h c List.mem_cons_self)
    have hmore := ih (letters ++ [c]) fun d hd => h d (List.mem_cons_of_mem c hd)
    rw [List.append_assoc] at hmore
    exact cons hc hmore

/-- A word is read up to what it does not go on with. -/
theorem word_of_between (hs : s ≠ []) (h : ∀ c ∈ s, isWordChar c = true) :
    Scans .between s [] (.word s) := by
  cases s with
  | nil => exact absurd rfl hs
  | cons c s =>
    have hc : isWordChar c = true := h c List.mem_cons_self
    have hfirst : step .between c = ([], .word [c]) := by
      rw [step, stepBetween, if_neg (by simp [isBlank_of_isWordChar hc]),
        if_neg (ne_of_isWordChar hc rfl), if_neg (ne_of_isWordChar hc rfl), if_pos hc]
    exact cons hfirst (word [c] fun d hd => h d (List.mem_cons_of_mem c hd))

/-- A remark takes everything up to the end of its line. -/
theorem remark (h : '\n' ∉ s) : Scans .remark (s ++ ['\n']) [] .between := by
  induction s with
  | nil => rfl
  | cons c s ih =>
    rw [List.mem_cons, not_or] at h
    obtain ⟨hc, hs⟩ := h
    have hstep : step .remark c = ([], .remark) := by rw [step, if_neg (Ne.symm hc)]
    exact cons hstep (ih hs)

end Scans

end ApiSurface.Dot
