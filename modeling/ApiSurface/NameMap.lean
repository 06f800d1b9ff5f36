namespace ApiSurface

/-- A finite map of names. Its entries are in the order of their names, so a map is its look-ups. -/
structure NameMap (β : Type) where
  entries : List (String × β)
  sorted : entries.Pairwise fun a b => a.1 < b.1
  deriving DecidableEq, Repr

namespace NameMap

variable {β γ : Type}

def empty : NameMap β := ⟨[], .nil⟩

instance : EmptyCollection (NameMap β) := ⟨empty⟩

def find? (key : String) : List (String × β) → Option β
  | [] => none
  | (k, v) :: rest => if key = k then some v else find? key rest

def get? (m : NameMap β) (key : String) : Option β := find? key m.entries

def contains (m : NameMap β) (key : String) : Bool := (m.get? key).isSome

def keys (m : NameMap β) : List String := m.entries.map (·.1)

def values (m : NameMap β) : List β := m.entries.map (·.2)

def size (m : NameMap β) : Nat := m.entries.length

def isEmpty (m : NameMap β) : Bool := m.entries.isEmpty

/-- Puts `f` of the value at `key`, or of none, in its place. -/
def alterEntries (key : String) (f : Option β → β) : List (String × β) → List (String × β)
  | [] => [(key, f none)]
  | (k, v) :: rest =>
    if key < k then (key, f none) :: (k, v) :: rest
    else if key = k then (k, f (some v)) :: rest
    else (k, v) :: alterEntries key f rest

theorem mem_keys_alterEntries {key : String} {f : Option β → β} {entries : List (String × β)}
    {e : String × β} (h : e ∈ alterEntries key f entries) : e.1 = key ∨ ∃ e' ∈ entries, e.1 = e'.1 := by
  induction entries with
  | nil => simp_all [alterEntries]
  | cons first rest ih =>
    rw [alterEntries] at h
    split at h
    · rcases List.mem_cons.1 h with rfl | h
      · exact .inl rfl
      · exact .inr ⟨e, h, rfl⟩
    split at h
    · rcases List.mem_cons.1 h with rfl | h
      · exact .inr ⟨first, List.mem_cons_self, rfl⟩
      · exact .inr ⟨e, List.mem_cons_of_mem _ h, rfl⟩
    · rcases List.mem_cons.1 h with rfl | h
      · exact .inr ⟨first, List.mem_cons_self, rfl⟩
      · exact (ih h).imp id fun ⟨e', he, hk⟩ => ⟨e', List.mem_cons_of_mem _ he, hk⟩

theorem sorted_alterEntries {key : String} {f : Option β → β} {entries : List (String × β)}
    (h : entries.Pairwise fun a b => a.1 < b.1) :
    (alterEntries key f entries).Pairwise fun a b => a.1 < b.1 := by
  induction entries with
  | nil => exact List.pairwise_singleton ..
  | cons first rest ih =>
    obtain ⟨hfirst, hrest⟩ := List.pairwise_cons.1 h
    rw [alterEntries]
    split
    · rename_i hlt
      refine List.pairwise_cons.2 ⟨fun e he => ?_, h⟩
      rcases List.mem_cons.1 he with rfl | he
      · exact hlt
      · exact String.lt_trans hlt (hfirst e he)
    split
    · exact List.pairwise_cons.2 ⟨hfirst, hrest⟩
    · rename_i hnlt hne
      refine List.pairwise_cons.2 ⟨fun e he => ?_, ih hrest⟩
      rcases mem_keys_alterEntries he with hk | ⟨e', he', hk⟩
      · have hle : first.1 ≤ key := String.not_lt.1 hnlt
        rw [hk]
        exact Decidable.byContradiction fun hn =>
          hne (String.le_antisymm (String.not_lt.1 hn) hle)
      · rw [hk]
        exact hfirst e' he'

/-- The map with `f` of the value at `key`, or of none, at `key`. -/
def alter (m : NameMap β) (key : String) (f : Option β → β) : NameMap β :=
  ⟨alterEntries key f m.entries, sorted_alterEntries m.sorted⟩

/-- The map with `value` at `key`, in place of what was there. -/
def insert (m : NameMap β) (key : String) (value : β) : NameMap β := m.alter key fun _ => value

def insertNew (m : NameMap β) (key : String) (value : β) : NameMap β :=
  m.alter key fun old => old.getD value

/-- The map of a list of entries; of two values for one name the later one counts. -/
def ofList (entries : List (String × β)) : NameMap β :=
  entries.foldl (fun m e => m.insert e.1 e.2) ∅

theorem find?_eq_none {key : String} {entries : List (String × β)}
    (h : ∀ e ∈ entries, key < e.1) : find? key entries = none := by
  induction entries with
  | nil => rfl
  | cons first rest ih =>
    have hk := h first List.mem_cons_self
    rw [find?, if_neg fun he => String.lt_irrefl _ (he ▸ hk)]
    exact ih fun e he => h e (List.mem_cons_of_mem _ he)

theorem get?_alter (m : NameMap β) (key other : String) (f : Option β → β) :
    (m.alter key f).get? other = if other = key then some (f (m.get? key)) else m.get? other := by
  obtain ⟨entries, h⟩ := m
  simp only [alter, get?]
  induction entries with
  | nil => simp only [alterEntries, find?]
  | cons first rest ih =>
    obtain ⟨k, v⟩ := first
    obtain ⟨hfirst, hrest⟩ := List.pairwise_cons.1 h
    rw [alterEntries]
    split
    · rename_i hlt
      have hnone : find? key ((k, v) :: rest) = none := find?_eq_none fun e he => by
        rcases List.mem_cons.1 he with rfl | he
        · exact hlt
        · exact String.lt_trans hlt (hfirst e he)
      rw [find?, hnone]
    split
    · rename_i hk
      subst hk
      by_cases ho : other = key <;> simp [find?, ho]
    · rename_i hne
      rw [find?, find?, find?, ih hrest, if_neg hne]
      by_cases ho : other = key
      · simp [ho, hne]
      · simp [ho]

theorem entries_ext {as bs : List (String × β)} (ha : as.Pairwise fun a b => a.1 < b.1)
    (hb : bs.Pairwise fun a b => a.1 < b.1) (h : ∀ key, find? key as = find? key bs) : as = bs := by
  have below {k : String} {v : β} {rest : List (String × β)}
      (hs : ((k, v) :: rest).Pairwise fun a b => a.1 < b.1) {key : String} (hk : key < k) :
      find? key ((k, v) :: rest) = none := find?_eq_none fun e he => by
    rcases List.mem_cons.1 he with rfl | he
    · exact hk
    · exact String.lt_trans hk ((List.pairwise_cons.1 hs).1 e he)
  induction as generalizing bs with
  | nil =>
    cases bs with
    | nil => rfl
    | cons b bs => simpa [find?] using h b.1
  | cons a as ih =>
    cases bs with
    | nil => simpa [find?] using h a.1
    | cons b bs =>
      obtain ⟨k, v⟩ := a
      obtain ⟨k', v'⟩ := b
      have hk : k = k' := by
        by_cases hlt : k < k'
        · have := h k
          rw [below hb hlt] at this
          simp [find?] at this
        by_cases hgt : k' < k
        · have := h k'
          rw [below ha hgt] at this
          simp [find?] at this
        exact String.le_antisymm (String.not_lt.1 hgt) (String.not_lt.1 hlt)
      subst hk
      have hv : v = v' := by simpa [find?] using h k
      obtain ⟨hka, hsa⟩ := List.pairwise_cons.1 ha
      obtain ⟨hkb, hsb⟩ := List.pairwise_cons.1 hb
      rw [hv, ih hsa hsb fun key => ?_]
      by_cases hkey : key = k
      · rw [hkey, find?_eq_none hka, find?_eq_none hkb]
      · simpa [find?, hkey] using h key

/-- A map is its look-ups. -/
theorem ext_get? {m n : NameMap β} (h : ∀ key, m.get? key = n.get? key) : m = n := by
  obtain ⟨as, ha⟩ := m
  obtain ⟨bs, hb⟩ := n
  obtain rfl := entries_ext ha hb h
  rfl

theorem get?_insert (m : NameMap β) (key other : String) (value : β) :
    (m.insert key value).get? other = if other = key then some value else m.get? other :=
  get?_alter ..

end NameMap

abbrev NameSet := NameMap Unit

namespace NameSet

def toList (s : NameSet) : List String := s.keys

def add (s : NameSet) (name : String) : NameSet := NameMap.insert s name ()

def ofList (names : List String) : NameSet := names.foldl add ∅

end NameSet

end ApiSurface
