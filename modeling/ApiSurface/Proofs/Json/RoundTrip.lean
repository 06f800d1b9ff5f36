import ApiSurface.Json.Reader
import ApiSurface.Proofs.Json.Literal

namespace ApiSurface.Json

open Text

/-- A value whose literals are those that texts and numbers of a machine word are written as. -/
inductive Value.IsWritten : Value → Prop
  | null : Value.null.IsWritten
  | bool (b : Bool) : (Value.bool b).IsWritten
  | number {n : Nat} (word : n < 2 ^ 64) : (Value.ofNat n).IsWritten
  | text (s : List Char) : (Value.ofText s).IsWritten
  | array {items : List Value} (each : ∀ v ∈ items, v.IsWritten) : (Value.array items).IsWritten
  | object {members : List (List Char × Value)}
      (names : ∀ m ∈ members, ∃ s, m.1 = escape s) (each : ∀ m ∈ members, m.2.IsWritten) :
      (Value.object members).IsWritten

section Read

variable {n indent : Nat} {v : Value} {s rest : List Char}

theorem skipBlanks_cons {c : Char} (hc : isBlank c = false) : skipBlanks (c :: s) = c :: s := by
  rw [skipBlanks, List.dropWhile_cons_of_neg (by rw [hc]; exact Bool.false_ne_true)]

theorem skipBlanks_lineBreak_append (indent : Nat) (s : List Char) :
    skipBlanks (Value.lineBreak indent ++ s) = skipBlanks s := by
  have hblank : ∀ c ∈ Value.lineBreak indent, isBlank c = true := by
    intro c hc
    obtain rfl | hc := List.mem_cons.1 hc
    · rfl
    · rw [List.eq_of_mem_replicate hc]
      rfl
  exact List.dropWhile_append_of_pos hblank

theorem ne_of_isDigit {c d : Char} (hc : c.isDigit = true) (hd : d.isDigit = false) : c ≠ d := by
  rintro rfl
  exact Bool.false_ne_true (hd.symm.trans hc)

theorem isBlank_of_isDigit {c : Char} (hc : c.isDigit = true) : isBlank c = false := by
  have hne (d : Char) (hd : d.isDigit = false) : (c == d) = false :=
    beq_false_of_ne (ne_of_isDigit hc hd)
  simp only [isBlank, hne ' ' rfl, hne '\n' rfl, hne '\t' rfl, hne '\r' rfl, Bool.or_self]

theorem toDigits_eq_cons (n : Nat) :
    ∃ c digits, Nat.toDigits 10 n = c :: digits ∧ c.isDigit = true := by
  cases hd : Nat.toDigits 10 n with
  | nil => exact absurd hd Nat.toDigits_ne_nil
  | cons c digits =>
    exact ⟨c, digits, rfl, isDigit_of_mem_toDigits (n := n) c (hd ▸ List.mem_cons_self)⟩

/-- No written value begins with a blank or with what ends an array. -/
theorem Value.IsWritten.first (hv : v.IsWritten) (indent : Nat) :
    ∃ c t, v.chars indent = c :: t ∧ isBlank c = false ∧ c ≠ ']' := by
  cases hv with
  | null => exact ⟨'n', _, rfl, rfl, by decide⟩
  | bool b => cases b <;> exact ⟨_, _, rfl, rfl, by decide⟩
  | @number n word =>
    obtain ⟨c, digits, hd, hc⟩ := toDigits_eq_cons n
    exact ⟨c, digits, hd, isBlank_of_isDigit hc, ne_of_isDigit hc rfl⟩
  | text s => exact ⟨'"', _, rfl, rfl, by decide⟩
  | @array items each => cases items <;> exact ⟨'[', _, rfl, rfl, by decide⟩
  | @object members names each => cases members <;> exact ⟨'\x7b', _, rfl, rfl, by decide⟩

theorem Value.IsWritten.skipBlanks_append (hv : v.IsWritten) (indent : Nat) (rest : List Char) :
    skipBlanks (v.chars indent ++ rest) = v.chars indent ++ rest := by
  obtain ⟨c, t, hfirst, hc, -⟩ := hv.first indent
  rw [hfirst, List.cons_append, skipBlanks_cons hc]

theorem skipBlanks_quoted (literal rest : List Char) :
    skipBlanks (Value.quoted literal ++ rest) = Value.quoted literal ++ rest :=
  skipBlanks_cons rfl

theorem memberName_quoted (name rest : List Char) (h : skipBlanks s =
    Value.quoted (escape name) ++ (": ".toList ++ rest)) :
    memberName s = some (escape name, ' ' :: rest) := by
  have hquoted : Value.quoted (escape name) ++ (": ".toList ++ rest) =
      '"' :: (escape name ++ '"' :: ':' :: ' ' :: rest) := by
    have hcolon : ": ".toList = [':', ' '] := rfl
    simp only [Value.quoted, hcolon, List.cons_append, List.append_assoc, List.nil_append]
  have hskip : skipBlanks (':' :: ' ' :: rest) = ':' :: ' ' :: rest := skipBlanks_cons rfl
  rw [memberName, h, hquoted]
  simp only [scanString_escape, Option.bind_eq_bind, Option.bind_some, hskip]
  rfl

/-- What follows an item or a member begins with a comma or a line feed. -/
theorem endsNumber_lineBreak (indent : Nat) (s : List Char) :
    EndsNumber (Value.lineBreak indent ++ s) := by
  intro c hc
  obtain rfl : '\n' = c := Option.some.inj hc
  exact ⟨rfl, by decide, rfl⟩

theorem endsNumber_comma (s : List Char) : EndsNumber (',' :: s) := by
  intro c hc
  obtain rfl : ',' = c := Option.some.inj hc
  exact ⟨rfl, by decide, rfl⟩

theorem endsNumber_itemChars (items : List Value) (indent k : Nat) (s : List Char) :
    EndsNumber (Value.itemChars indent items ++ (Value.lineBreak k ++ s)) := by
  cases items with
  | nil => exact endsNumber_lineBreak k s
  | cons v items => exact endsNumber_comma _

theorem endsNumber_memberChars (members : List (List Char × Value)) (indent k : Nat)
    (s : List Char) :
    EndsNumber (Value.memberChars indent members ++ (Value.lineBreak k ++ s)) := by
  cases members with
  | nil => exact endsNumber_lineBreak k s
  | cons m members => exact endsNumber_comma _

end Read

/-- A reader of values that reads every written value of at most `n` characters back. -/
def ReadsValues (n : Nat) (read : List Char → Option (Value × List Char)) : Prop :=
  ∀ {v : Value} {indent : Nat} {s rest : List Char}, v.IsWritten → (v.chars indent).length ≤ n →
    EndsNumber rest → skipBlanks s = v.chars indent ++ rest → read s = some (v, rest)

/-- The same for the items after the first one, with the bracket that ends them. -/
def ReadsItems (n : Nat) (read : List Char → Option (List Value × List Char)) : Prop :=
  ∀ {items : List Value} {indent k : Nat} {rest : List Char}, (∀ v ∈ items, v.IsWritten) →
    (Value.itemChars indent items).length < n →
    read (Value.itemChars indent items ++ (Value.lineBreak k ++ ']' :: rest)) = some (items, rest)

/-- The same for the members after the first one, with the brace that ends them. -/
def ReadsMembers (n : Nat)
    (read : List Char → Option (List (List Char × Value) × List Char)) : Prop :=
  ∀ {members : List (List Char × Value)} {indent k : Nat} {rest : List Char},
    (∀ m ∈ members, ∃ s, m.1 = escape s) → (∀ m ∈ members, m.2.IsWritten) →
    (Value.memberChars indent members).length < n →
    read (Value.memberChars indent members ++ (Value.lineBreak k ++ '\x7d' :: rest)) =
      some (members, rest)

section Layer

variable {n : Nat}

theorem itemsWithin_succ (hread : ReadsValues n (readWithin n))
    (hmore : ReadsItems n (itemsWithin n)) : ReadsItems (n + 1) (itemsWithin (n + 1)) := by
  intro items indent k rest hw hlen
  cases items with
  | nil =>
    have hskip : skipBlanks (Value.lineBreak k ++ ']' :: rest) = ']' :: rest := by
      rw [skipBlanks_lineBreak_append, skipBlanks_cons rfl]
    rw [Value.itemChars, List.nil_append, itemsWithin, hskip]
    rfl
  | cons v items =>
    obtain ⟨hv, hitems⟩ := List.forall_mem_cons.1 hw
    have htext : Value.itemChars indent (v :: items) ++ (Value.lineBreak k ++ ']' :: rest) =
        ',' :: (Value.lineBreak indent ++ (v.chars indent ++ (Value.itemChars indent items ++
          (Value.lineBreak k ++ ']' :: rest)))) := by
      simp only [Value.itemChars, List.cons_append, List.append_assoc]
    have hlen' : (v.chars indent).length ≤ n ∧ (Value.itemChars indent items).length < n := by
      simp only [Value.itemChars, List.cons_append, List.length_cons, List.length_append,
        Value.lineBreak] at hlen
      omega
    have hvalue := hread hv hlen'.1 (endsNumber_itemChars items indent k (']' :: rest))
      ((skipBlanks_lineBreak_append indent _).trans (hv.skipBlanks_append indent _))
    rw [htext, itemsWithin, skipBlanks_cons rfl]
    simp only [hvalue, hmore hitems hlen'.2, Option.bind_eq_bind, Option.bind_some]
    rfl

/-- A member, by a reader of its value. -/
theorem member_append (hread : ReadsValues n (readWithin n)) {name s rest : List Char} {v : Value}
    {indent : Nat} (hv : v.IsWritten) (hlen : (v.chars indent).length ≤ n) (hr : EndsNumber rest)
    (hs : skipBlanks s =
      Value.quoted (escape name) ++ (": ".toList ++ (v.chars indent ++ rest))) :
    ∃ t, memberName s = some (escape name, t) ∧ readWithin n t = some (v, rest) := by
  refine ⟨_, memberName_quoted name _ hs, hread hv hlen hr ?_⟩
  exact hv.skipBlanks_append indent rest

theorem membersWithin_succ (hread : ReadsValues n (readWithin n))
    (hmore : ReadsMembers n (membersWithin n)) : ReadsMembers (n + 1) (membersWithin (n + 1)) := by
  intro members indent k rest hn hw hlen
  cases members with
  | nil =>
    have hskip : skipBlanks (Value.lineBreak k ++ '\x7d' :: rest) = '\x7d' :: rest := by
      rw [skipBlanks_lineBreak_append, skipBlanks_cons rfl]
    rw [Value.memberChars, List.nil_append, membersWithin, hskip]
    rfl
  | cons m members =>
    obtain ⟨⟨name, hname⟩, hnames⟩ := List.forall_mem_cons.1 hn
    obtain ⟨hv, hmembers⟩ := List.forall_mem_cons.1 hw
    obtain ⟨_, v⟩ := m
    obtain rfl := hname
    have htext : Value.memberChars indent ((escape name, v) :: members) ++
        (Value.lineBreak k ++ '\x7d' :: rest) =
        ',' :: (Value.lineBreak indent ++ (Value.quoted (escape name) ++ (": ".toList ++
          (v.chars indent ++ (Value.memberChars indent members ++
            (Value.lineBreak k ++ '\x7d' :: rest)))))) := by
      simp only [Value.memberChars, List.cons_append, List.append_assoc]
    have hlen' : (v.chars indent).length ≤ n ∧ (Value.memberChars indent members).length < n := by
      simp only [Value.memberChars, List.cons_append, List.length_cons, List.length_append,
        Value.lineBreak] at hlen
      omega
    obtain ⟨t, hmember, hvalue⟩ := member_append hread hv hlen'.1
      (endsNumber_memberChars members indent k ('\x7d' :: rest))
      ((skipBlanks_lineBreak_append indent _).trans (skipBlanks_quoted (escape name) _))
    rw [htext, membersWithin, skipBlanks_cons rfl]
    simp only [hmember, hvalue, hmore hnames hmembers hlen'.2, Option.bind_eq_bind, Option.bind_some]
    rfl

/-- A digit begins nothing but a number. -/
theorem readWithin_of_isDigit {c : Char} {s t : List Char} (hs : skipBlanks s = c :: t)
    (hc : c.isDigit = true) : readWithin (n + 1) s = (number (c :: t)).map (Prod.map .number id) := by
  have hscalar : scalar (c :: t) = (number (c :: t)).map (Prod.map .number id) := by
    unfold scalar
    split
    · rename_i h
      exact absurd (List.cons.inj h).1 (ne_of_isDigit hc rfl)
    · rename_i h
      exact absurd (List.cons.inj h).1 (ne_of_isDigit hc rfl)
    · rename_i h
      exact absurd (List.cons.inj h).1 (ne_of_isDigit hc rfl)
    · rfl
  rw [readWithin, hs]
  split
  · rename_i h
    exact absurd (List.cons.inj h).1 (ne_of_isDigit hc rfl)
  · rename_i h
    exact absurd (List.cons.inj h).1 (ne_of_isDigit hc rfl)
  · rename_i h
    exact absurd (List.cons.inj h).1 (ne_of_isDigit hc rfl)
  · exact hscalar

/-- An array with items: the first one, and the reader of the others. -/
theorem readWithin_array (hread : ReadsValues n (readWithin n)) (hitems : ReadsItems n (itemsWithin n))
    {item : Value} {items : List Value} {indent : Nat} {s rest : List Char}
    (each : ∀ v ∈ item :: items, v.IsWritten)
    (hlen : ((Value.array (item :: items)).chars indent).length ≤ n + 1)
    (hs : skipBlanks s = (Value.array (item :: items)).chars indent ++ rest) :
    readWithin (n + 1) s = some (.array (item :: items), rest) := by
  obtain ⟨hitem, heach⟩ := List.forall_mem_cons.1 each
  have htext : (Value.array (item :: items)).chars indent ++ rest =
      '[' :: (Value.lineBreak (indent + 1) ++ (item.chars (indent + 1) ++
        (Value.itemChars (indent + 1) items ++ (Value.lineBreak indent ++ ']' :: rest)))) := by
    simp only [Value.chars, List.cons_append, List.append_assoc, List.nil_append]
  have hlen' : (item.chars (indent + 1)).length ≤ n ∧
      (Value.itemChars (indent + 1) items).length < n := by
    simp only [Value.chars, List.cons_append, List.length_cons, List.length_append,
      Value.lineBreak] at hlen
    omega
  have hskip := (skipBlanks_lineBreak_append (indent + 1) _).trans (hitem.skipBlanks_append
    (indent + 1) (Value.itemChars (indent + 1) items ++ (Value.lineBreak indent ++ ']' :: rest)))
  have hvalue := hread hitem hlen'.1 (endsNumber_itemChars items (indent + 1) indent (']' :: rest))
    (hitem.skipBlanks_append (indent + 1) _)
  obtain ⟨c, t, hfirst, -, hc⟩ := hitem.first (indent + 1)
  rw [hfirst, List.cons_append] at hskip hvalue
  rw [readWithin, hs, htext, hfirst]
  simp only [List.cons_append, hskip]
  split
  · rename_i h
    exact absurd (List.cons.inj h).1 hc
  · simp only [hvalue, hitems heach hlen'.2, Option.bind_eq_bind, Option.bind_some]
    rfl

/-- An object with members: the first one, and the reader of the others. -/
theorem readWithin_object (hread : ReadsValues n (readWithin n))
    (hmembers : ReadsMembers n (membersWithin n)) {m : List Char × Value}
    {members : List (List Char × Value)} {indent : Nat} {s rest : List Char}
    (names : ∀ p ∈ m :: members, ∃ name, p.1 = escape name)
    (each : ∀ p ∈ m :: members, p.2.IsWritten)
    (hlen : ((Value.object (m :: members)).chars indent).length ≤ n + 1)
    (hs : skipBlanks s = (Value.object (m :: members)).chars indent ++ rest) :
    readWithin (n + 1) s = some (.object (m :: members), rest) := by
  obtain ⟨⟨name, hname⟩, hnames⟩ := List.forall_mem_cons.1 names
  obtain ⟨hv, heach⟩ := List.forall_mem_cons.1 each
  obtain ⟨_, v⟩ := m
  obtain rfl := hname
  have htext : (Value.object ((escape name, v) :: members)).chars indent ++ rest =
      '\x7b' :: (Value.lineBreak (indent + 1) ++ (Value.quoted (escape name) ++ (": ".toList ++
        (v.chars (indent + 1) ++ (Value.memberChars (indent + 1) members ++
          (Value.lineBreak indent ++ '\x7d' :: rest)))))) := by
    simp only [Value.chars, List.cons_append, List.append_assoc, List.nil_append]
  have hlen' : (v.chars (indent + 1)).length ≤ n ∧
      (Value.memberChars (indent + 1) members).length < n := by
    simp only [Value.chars, List.cons_append, List.length_cons, List.length_append,
      Value.lineBreak] at hlen
    omega
  obtain ⟨t, hmember, hvalue⟩ := member_append hread hv hlen'.1
    (endsNumber_memberChars members (indent + 1) indent ('\x7d' :: rest))
    (skipBlanks_quoted (escape name) _)
  have hskip := (skipBlanks_lineBreak_append (indent + 1) _).trans
    (skipBlanks_quoted (escape name) (": ".toList ++ (v.chars (indent + 1) ++
      (Value.memberChars (indent + 1) members ++ (Value.lineBreak indent ++ '\x7d' :: rest)))))
  rw [readWithin, hs, htext]
  simp only [hskip]
  split
  · rename_i h
    exact absurd (List.cons.inj h).1 (by decide)
  · simp only [hmember, hvalue, hmembers hnames heach hlen'.2, Option.bind_eq_bind,
      Option.bind_some]
    rfl

theorem readWithin_succ (hread : ReadsValues n (readWithin n)) (hitems : ReadsItems n (itemsWithin n))
    (hmembers : ReadsMembers n (membersWithin n)) : ReadsValues (n + 1) (readWithin (n + 1)) := by
  intro v indent s rest hv hlen hr hs
  cases hv with
  | null =>
    rw [readWithin, hs]
    rfl
  | bool b =>
    rw [readWithin, hs]
    cases b <;> rfl
  | @number m word =>
    obtain ⟨c, digits, hd, hc⟩ := toDigits_eq_cons m
    have hchars : (Value.ofNat m).chars indent ++ rest = c :: (digits ++ rest) := by
      rw [Value.ofNat, Value.chars, hd, List.cons_append]
    rw [readWithin_of_isDigit (hs.trans hchars) hc, ← List.cons_append, ← hd, number_toDigits m hr]
    rfl
  | text text =>
    have htext : (Value.ofText text).chars indent ++ rest = '"' :: (escape text ++ '"' :: rest) := by
      simp only [Value.ofText, Value.chars, Value.quoted, List.cons_append, List.append_assoc,
        List.nil_append]
    rw [readWithin, hs, htext]
    simp only [scanString_escape]
    rfl
  | @array items each =>
    cases items with
    | nil =>
      rw [readWithin, hs]
      rfl
    | cons item items => exact readWithin_array hread hitems each hlen hs
  | @object members names each =>
    cases members with
    | nil =>
      rw [readWithin, hs]
      rfl
    | cons m members => exact readWithin_object hread hmembers names each hlen hs

end Layer

theorem readWithin_chars (n : Nat) : ReadsValues n (readWithin n) ∧ ReadsItems n (itemsWithin n) ∧
    ReadsMembers n (membersWithin n) := by
  induction n with
  | zero =>
    refine ⟨?_, ?_, ?_⟩
    · intro v indent s rest hv hlen
      obtain ⟨c, t, hfirst, -⟩ := hv.first indent
      rw [hfirst] at hlen
      exact absurd hlen (Nat.not_succ_le_zero _)
    · intro items indent k rest _ hlen
      exact absurd hlen (Nat.not_lt_zero _)
    · intro members indent k rest _ _ hlen
      exact absurd hlen (Nat.not_lt_zero _)
  | succ n ih =>
    obtain ⟨hread, hitems, hmembers⟩ := ih
    exact ⟨readWithin_succ hread hitems hmembers, itemsWithin_succ hread hitems,
      membersWithin_succ hread hmembers⟩

/-- A written value is the value of its text. -/
theorem parse_render {v : Value} (hv : v.IsWritten) : parse v.render.toList = some v := by
  have hread : readWithin (v.chars 0).length (v.chars 0) = some (v, []) := by
    refine (readWithin_chars _).1 hv (Nat.le_refl _) ?_ ?_
    · simp [EndsNumber]
    · have h := hv.skipBlanks_append 0 []
      rwa [List.append_nil] at h ⊢
  rw [Value.render, String.toList_ofList, parse, hread]
  rfl

end ApiSurface.Json
