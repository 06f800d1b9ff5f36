import ApiSurface.Proofs.Modifiers
import ApiSurface.TypeExpr.Reader

namespace ApiSurface

open Text TopLevel

/-- The words that a list of bounds stands behind, each with the type that it makes of them. -/
inductive TypeExpr.BoundWord : List Char → (List GenericArg → TypeExpr) → Prop
  | impl : TypeExpr.BoundWord "impl".toList .implBound
  | dyn : TypeExpr.BoundWord "dyn".toList .dynBound

namespace TypeExpr.BoundWord

variable {word : List Char} {build : List GenericArg → TypeExpr}

theorem isIdentifier (h : BoundWord word build) : isIdentifier word = true := by
  cases h <;> decide

theorem chars_eq (h : BoundWord word build) (bounds : List GenericArg) :
    (build bounds).chars = word ++ ' ' :: GenericArg.boundChars bounds := by
  cases h <;> (rw [TypeExpr.chars]; rfl)

end TypeExpr.BoundWord

section Level

variable {type : Reader TypeExpr} {more : Reader (List GenericArg)} {s x : List Char}

section Marks

variable {rest : List Char}

theorem TypeExpr.level_ampersand (hx : trimStart x = '&' :: rest) :
    TypeExpr.level type more x = Modifiers.read ('&' :: rest) >>= fun m => type m.2 >>= fun t =>
      .ok (.reference m.1.isMutable m.1.lifetime t.1, t.2) := by
  rw [TypeExpr.level, hx]
  rfl

theorem TypeExpr.level_star (hx : trimStart x = '*' :: rest) :
    TypeExpr.level type more x = mutability (trimStart rest) >>= fun m => type m.2 >>= fun t =>
      .ok (.pointer m.1 t.1, t.2) := by
  rw [TypeExpr.level, hx]
  rfl

theorem TypeExpr.level_round (hx : trimStart x = '(' :: rest) :
    TypeExpr.level type more x = Bracket.enclosed ('(' :: rest) >>= fun p =>
      (split ',' p.1).mapM (TypeExpr.wholeWith type) >>= fun ts => .ok (.tuple ts, p.2) := by
  rw [TypeExpr.level, hx]
  rfl

theorem TypeExpr.level_square (hx : trimStart x = '[' :: rest) :
    TypeExpr.level type more x = Bracket.enclosed ('[' :: rest) >>= fun p =>
      TypeExpr.squareWith type p.1 >>= fun t => .ok (t, p.2) := by
  rw [TypeExpr.level, hx]
  rfl

end Marks

theorem TypeExpr.level_trimStart (x : List Char) :
    TypeExpr.level type more (trimStart x) = TypeExpr.level type more x := by
  unfold TypeExpr.level
  rw [trimStart_trimStart]

/-- A layer that begins with a word: a list of bounds, or a path with what follows it. -/
def TypeExpr.wordLevel (type : Reader TypeExpr) (more : Reader (List GenericArg)) :
    Reader TypeExpr := fun s =>
  match keyword? "impl".toList s, keyword? "dyn".toList s with
  | some rest, _ => (GenericArg.readBoundsWith type more rest).map (Prod.map .implBound id)
  | none, some rest => (GenericArg.readBoundsWith type more rest).map (Prod.map .dynBound id)
  | none, none => do
    let (path, rest) ← readPath s
    TypeExpr.namedWith type (String.ofList path) rest

theorem TypeExpr.level_of_word (hs : ∀ c ∈ (trimStart s).head?, c ∉ ['&', '*', '(', '[']) :
    TypeExpr.level type more s = TypeExpr.wordLevel type more (trimStart s) := by
  unfold TypeExpr.level
  generalize trimStart s = u at hs ⊢
  split
  · exact absurd (hs '&' rfl) (by decide)
  · exact absurd (hs '*' rfl) (by decide)
  · exact absurd (hs '(' rfl) (by decide)
  · exact absurd (hs '[' rfl) (by decide)
  · rfl

section Head

variable {c : Char} {rest : List Char} (hx : trimStart x = c :: rest)
include hx

theorem TypeExpr.level_of_head (hc : c ∉ ['&', '*', '(', '[']) :
    TypeExpr.level type more x = TypeExpr.wordLevel type more (c :: rest) := by
  rw [level_of_word, hx]
  rw [hx]
  rintro d ⟨⟩
  exact hc

/-- A word in front is the start of bounds or of a path. -/
theorem TypeExpr.level_word (hc : isWordStart c = true) : TypeExpr.level type more x =
      match keyword? "impl".toList (c :: rest), keyword? "dyn".toList (c :: rest) with
      | some rest, _ => (GenericArg.readBoundsWith type more rest).map (Prod.map .implBound id)
      | none, some rest => (GenericArg.readBoundsWith type more rest).map (Prod.map .dynBound id)
      | none, none =>
        readPath (c :: rest) >>= fun p => TypeExpr.namedWith type (String.ofList p.1) p.2 := by
  refine level_of_head hx fun hmark => ?_
  have hmarks : ∀ d ∈ ['&', '*', '(', '['], isWordStart d = false := by decide
  rw [hmarks c hmark] at hc
  cases hc

end Head

/-- The word `impl` is looked for first, and no text begins with both. -/
theorem TypeExpr.BoundWord.level_eq {word : List Char} {build : List GenericArg → TypeExpr}
    (h : BoundWord word build) (hx : trimStart x = word ++ ' ' :: s) :
    TypeExpr.level type more x =
      (GenericArg.readBoundsWith type more (' ' :: s)).map (Prod.map build id) := by
  have hk := keyword?_append word (continuesWord_blank s)
  cases h with
  | impl =>
    change trimStart x = 'i' :: ('m' :: 'p' :: 'l' :: ' ' :: s) at hx
    change keyword? "impl".toList ('i' :: ('m' :: 'p' :: 'l' :: ' ' :: s)) = _ at hk
    rw [TypeExpr.level_word hx (by decide), hk]
  | dyn =>
    have hi : keyword? "impl".toList ('d' :: ('y' :: 'n' :: ' ' :: s)) = none :=
      keyword?_eq_none_of_head (by decide)
    change trimStart x = 'd' :: ('y' :: 'n' :: ' ' :: s) at hx
    change keyword? "dyn".toList ('d' :: ('y' :: 'n' :: ' ' :: s)) = _ at hk
    rw [TypeExpr.level_word hx (by decide), hi, hk]

theorem GenericArg.readWith_lifetime {l rest : List Char}
    (h : readLifetime (trimStart s) = .ok (l, rest)) :
    GenericArg.readWith type s = .ok (.lifetime (String.ofList l), rest) := by
  obtain ⟨t, ht⟩ := exists_quote_of_readLifetime h
  rw [ht] at h
  rw [GenericArg.readWith, ht]
  exact map_eq_ok_iff.2 ⟨_, h, rfl⟩

/-- A text that begins with no quote is read as a type, or as a name bound to one. -/
theorem GenericArg.readWith_of_plain (hq : ∀ t, trimStart s = '\'' :: t → False) :
    GenericArg.readWith type s = match (word? (trimStart s)).map (Prod.map id trimStart) with
      | some (_, '=' :: '=' :: _) => (type (trimStart s)).map (Prod.map .type id)
      | some (name, '=' :: rest) => (type rest).map (Prod.map (.binding (String.ofList name)) id)
      | _ => (type (trimStart s)).map (Prod.map .type id) := by
  unfold GenericArg.readWith
  split
  · exact (hq _ ‹_›).elim
  · rfl

/-- A text that begins with no quote, and behind whose first word stands no equals sign or two, is
read as a type. -/
theorem GenericArg.readWith_type (hq : ∀ t, trimStart s = '\'' :: t → False)
    (he : ∀ word after rest, word? (trimStart s) = some (word, after) →
      trimStart after = '=' :: rest → rest.head? = some '=') :
    GenericArg.readWith type s = (type (trimStart s)).map (Prod.map .type id) := by
  rw [readWith_of_plain hq]
  split
  · rfl
  · rename_i name rest hone hw
    obtain ⟨⟨word, after⟩, hw, hr⟩ := Option.map_eq_some_iff.1 hw
    obtain ⟨t, rfl⟩ := List.head?_eq_some_iff.1 (he word after rest hw (congrArg Prod.snd hr))
    exact (hone t rfl).elim
  · rfl

theorem GenericArg.readWith_binding {word after rest : List Char}
    (hw : word? (trimStart s) = some (word, after)) (ha : trimStart after = '=' :: rest)
    (hr : rest.head? ≠ some '=') : GenericArg.readWith type s =
      (type rest).map (Prod.map (.binding (String.ofList word)) id) := by
  have hq : ∀ t, trimStart s = '\'' :: t → False := by
    intro t ht
    rw [ht] at hw
    cases hw
  rw [readWith_of_plain hq, hw, Option.map_some, Prod.map, ha]
  split
  · rename_i he
    obtain ⟨-, rfl⟩ := List.cons.inj (Prod.mk.inj (Option.some.inj he)).2
    exact absurd rfl hr
  · rename_i he
    obtain ⟨hname, hrest⟩ := Prod.mk.inj (Option.some.inj he)
    obtain rfl : word = _ := hname
    rw [(List.cons.inj hrest).2]
  · rename_i hone
    exact (hone word rest rfl).elim

/-- An argument that was read is a lifetime, a name bound to a type, or a type. -/
theorem GenericArg.readWith_cases {a : GenericArg} {rest : List Char}
    (h : GenericArg.readWith type s = .ok (a, rest)) :
    (∃ l, readLifetime (trimStart s) = .ok (l, rest) ∧ a = .lifetime (String.ofList l)) ∨
    (∃ word after bound t, word? (trimStart s) = some (word, after) ∧
      trimStart after = '=' :: bound ∧ bound.head? ≠ some '=' ∧ type bound = .ok (t, rest) ∧
        a = .binding (String.ofList word) t) ∨
    ((∀ t, trimStart s = '\'' :: t → False) ∧ ∃ t, type (trimStart s) = .ok (t, rest) ∧
      a = .type t) := by
  have htype {x : Except Fault (TypeExpr × List Char)}
      (hx : x.map (Prod.map .type id) = .ok (a, rest)) : ∃ t, x = .ok (t, rest) ∧ a = .type t := by
    obtain ⟨⟨t, after⟩, ht, he⟩ := map_eq_ok_iff.1 hx
    obtain ⟨rfl, rfl⟩ := Prod.mk.inj he
    exact ⟨t, ht, rfl⟩
  unfold GenericArg.readWith at h
  split at h
  · rename_i t hquote
    rw [hquote]
    obtain ⟨⟨l, after⟩, hl, he⟩ := map_eq_ok_iff.1 h
    obtain ⟨rfl, rfl⟩ := Prod.mk.inj he
    exact .inl ⟨l, hl, rfl⟩
  · rename_i hquote
    split at h
    · exact .inr (.inr ⟨hquote, htype h⟩)
    · rename_i name bound hone hw
      obtain ⟨⟨word, after⟩, hword, hname⟩ := Option.map_eq_some_iff.1 hw
      obtain ⟨rfl, hafter⟩ := Prod.mk.inj hname
      obtain ⟨⟨t, after'⟩, ht, he⟩ := map_eq_ok_iff.1 h
      obtain ⟨rfl, rfl⟩ := Prod.mk.inj he
      refine .inr (.inl ⟨_, after, bound, t, hword, hafter, fun hb => ?_, ht, rfl⟩)
      obtain ⟨u, rfl⟩ := List.head?_eq_some_iff.1 hb
      exact (hone u rfl).elim
    · exact .inr (.inr ⟨hquote, htype h⟩)

end Level

theorem TypeExpr.readWithin_nil (m : Nat) :
    TypeExpr.readWithin m [] = .error (.noIdentifier []) := by
  cases m <;> rfl

theorem GenericArg.moreWithin_nil (m : Nat) : GenericArg.moreWithin m [] = .ok ([], []) := by
  cases m <;> rfl

end ApiSurface
