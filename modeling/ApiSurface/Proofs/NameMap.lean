import ApiSurface.NameMap
import Mathlib.Data.List.Perm.Basic
import Mathlib.Data.List.Nodup

namespace ApiSurface

namespace NameMap

variable {β γ : Type} {key : String} {entries : List (String × β)}

theorem mem_of_find? {value : β} (h : find? key entries = some value) : (key, value) ∈ entries := by
  induction entries with
  | nil => cases h
  | cons first rest ih =>
    rw [find?] at h
    split at h
    · rename_i hk
      rw [hk, ← Option.some.inj h]
      exact List.mem_cons_self
    · exact List.mem_cons_of_mem _ (ih h)

theorem isSome_find?_iff : (find? key entries).isSome ↔ key ∈ entries.map Prod.fst := by
  induction entries with
  | nil => simp [find?]
  | cons first rest ih =>
    rw [find?, List.map_cons, List.mem_cons, ← ih]
    by_cases hk : key = first.1 <;> simp [hk]

theorem isSome_get?_iff (m : NameMap β) : (m.get? key).isSome ↔ key ∈ m.keys := isSome_find?_iff

theorem contains_iff (m : NameMap β) : m.contains key = true ↔ key ∈ m.keys := isSome_find?_iff

theorem mem_values_of_get? {m : NameMap β} {value : β} (h : m.get? key = some value) :
    value ∈ m.values :=
  List.mem_map_of_mem (mem_of_find? h)

theorem sorted_keys (m : NameMap β) : m.keys.Pairwise (· < ·) := List.pairwise_map.2 m.sorted

/-- Names in strict order are told by which they are. -/
theorem names_ext {names others : List String} (hn : names.Pairwise (· < ·))
    (ho : others.Pairwise (· < ·)) (h : ∀ name, name ∈ names ↔ name ∈ others) : names = others := by
  have hperm : names.Perm others :=
    (List.perm_ext_iff_of_nodup hn.nodup ho.nodup).2 h
  refine hperm.eq_of_pairwise ?_ hn ho
  intro a b _ _ hab hba
  exact absurd (String.lt_trans hab hba) (String.lt_irrefl a)

/-- Maps that have a value for the same names list the same names. -/
theorem keys_eq_keys {m : NameMap β} {n : NameMap γ}
    (h : ∀ key, (m.get? key).isSome = (n.get? key).isSome) : m.keys = n.keys := by
  refine names_ext m.sorted_keys n.sorted_keys ?_
  intro key
  rw [← m.isSome_get?_iff, h key, n.isSome_get?_iff]

theorem isEmpty_iff (m : NameMap β) : m.isEmpty = true ↔ ∀ key, m.get? key = none := by
  have hkeys : m.isEmpty = true ↔ m.keys = [] := by simp [isEmpty, keys]
  rw [hkeys, List.eq_nil_iff_forall_not_mem]
  simp only [← m.isSome_get?_iff, Option.not_isSome_iff_eq_none]

theorem get?_empty (key : String) : (∅ : NameMap β).get? key = none := rfl

/-- A value for a name that has one already is left out. -/
theorem get?_insertNew (m : NameMap β) (key other : String) (value : β) :
    (m.insertNew key value).get? other =
      (m.get? other).or (if other = key then some value else none) := by
  rw [insertNew, get?_alter]
  by_cases ho : other = key
  · rw [if_pos ho, if_pos ho, ho]
    cases m.get? key <;> rfl
  · rw [if_neg ho, if_neg ho, Option.or_none]

/-- What is put behind the values of a name is all that is added to a map of lists. -/
theorem length_alterEntries_append (key : String) (more : List β)
    (entries : List (String × List β)) :
    ((alterEntries key (fun before => before.getD [] ++ more) entries).map Prod.snd).flatten.length =
      (entries.map Prod.snd).flatten.length + more.length := by
  induction entries with
  | nil => simp [alterEntries]
  | cons first rest ih =>
    obtain ⟨name, before⟩ := first
    rw [alterEntries]
    split
    · simp
      omega
    split
    · simp
      omega
    · rw [List.map_cons, List.map_cons, List.flatten_cons, List.flatten_cons, List.length_append,
        List.length_append, ih]
      omega

end NameMap

namespace NameSet

variable {name other : String}

theorem mem_toList_add (s : NameSet) : other ∈ (s.add name).toList ↔ other = name ∨ other ∈ s.toList := by
  have h := NameMap.get?_insert s name other ()
  rw [toList, toList, ← NameMap.isSome_get?_iff, ← NameMap.isSome_get?_iff, add, h]
  by_cases ho : other = name <;> simp [ho]

theorem mem_toList_foldl_add (names : List String) (s : NameSet) :
    other ∈ (names.foldl add s).toList ↔ other ∈ names ∨ other ∈ s.toList := by
  induction names generalizing s with
  | nil => simp
  | cons name names ih =>
    rw [List.foldl_cons, ih, mem_toList_add, List.mem_cons, or_left_comm, or_assoc]

/-- A set of listed names holds the listed names. -/
theorem mem_toList_ofList (names : List String) : other ∈ (ofList names).toList ↔ other ∈ names := by
  have hempty : other ∉ (∅ : NameSet).toList := List.not_mem_nil
  rw [ofList, mem_toList_foldl_add, or_iff_left hempty]

theorem sorted_toList (s : NameSet) : s.toList.Pairwise (· < ·) := s.sorted_keys

theorem contains_iff (s : NameSet) : s.contains name = true ↔ name ∈ s.toList :=
  NameMap.contains_iff s

end NameSet

end ApiSurface
