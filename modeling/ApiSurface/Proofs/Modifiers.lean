import ApiSurface.Modifiers
import ApiSurface.Proofs.Text

namespace ApiSurface

open Text

/-- A quote and an identifier. -/
def IsLifetime (s : List Char) : Prop := ∃ word, isIdentifier word = true ∧ s = '\'' :: word

theorem readIdentifier_append {word rest : List Char} (hw : isIdentifier word = true)
    (hr : continuesWord rest = false) : readIdentifier (word ++ rest) = .ok (word, rest) :=
  readIdentifier_eq_ok_iff.2 (word?_append hw hr)

theorem readLifetime_append {l rest : List Char} (hl : IsLifetime l)
    (hr : continuesWord rest = false) : readLifetime (l ++ rest) = .ok (l, rest) := by
  obtain ⟨word, hw, rfl⟩ := hl
  rw [List.cons_append, readLifetime, readIdentifier_append hw hr]
  rfl

theorem exists_quote_of_readLifetime {s l rest : List Char} (h : readLifetime s = .ok (l, rest)) :
    ∃ t, s = '\'' :: t := by
  obtain ⟨hs, word, hl, -⟩ := eq_of_readLifetime h
  rw [hl] at hs
  exact ⟨word ++ rest, hs⟩

/-- A word and the white space that keeps it apart from the next one, or nothing if there is no word. -/
inductive IsSpaced : Option (List Char) → List Char → Prop
  | absent : IsSpaced none []
  | word {word gap : List Char} (apart : gap ≠ []) (blank : isBlankText gap = true) :
      IsSpaced (some word) (word ++ gap)

/-- The first character is that of the word, or else of what follows. -/
theorem IsSpaced.forall_head?_append {P : Char → Prop} {word? : Option (List Char)}
    {s t : List Char} (ht : IsSpaced word? t)
    (hw : ∀ word ∈ word?, ∃ c rest, word = c :: rest ∧ P c) (hs : ∀ c ∈ s.head?, P c) :
    ∀ c ∈ (t ++ s).head?, P c := by
  cases ht with
  | absent => exact hs
  | @word word gap =>
    obtain ⟨c, rest, rfl, hc⟩ := hw word rfl
    rintro d ⟨⟩
    exact hc

namespace Modifiers

/-- The word `mut`, if it is there. -/
def mutWord? (isMutable : Bool) : Option (List Char) := if isMutable then some mutWord else none

/-- An ampersand and perhaps white space, or nothing if there is no ampersand. -/
inductive IsAmpersand : Bool → List Char → Prop
  | absent : IsAmpersand false []
  | present {gap : List Char} (blank : isBlankText gap = true) : IsAmpersand true ('&' :: gap)

/-- How modifiers may be spelled in front of a word. White space may stand before them and behind the
ampersand; some has to stand behind a lifetime and behind `mut`. -/
inductive Spells (m : Modifiers) : List Char → Prop
  | mk {front ampersand lifetime mutable : List Char} (blank : isBlankText front = true)
      (reference : IsAmpersand m.isReference ampersand)
      (life : IsSpaced (m.lifetime.map String.toList) lifetime)
      (word : IsSpaced (mutWord? m.isMutable) mutable) :
      m.Spells (front ++ ampersand ++ lifetime ++ mutable)

variable {s t : List Char}

/-- What may follow modifiers so that none of it is taken for one of them. -/
structure Ends (isReference : Bool) (s : List Char) : Prop where
  first : ∀ c ∈ s.head?, isBlank c = false ∧ c ≠ '\'' ∧ (isReference = false → c ≠ '&')
  mutable : keyword? mutWord s = none

/-- The first character is that of `mut`, or else of what follows. -/
theorem forall_head?_mutable {P : Char → Prop} {isMutable : Bool}
    (ht : IsSpaced (mutWord? isMutable) t) (hm : P 'm') (hs : ∀ c ∈ s.head?, P c) :
    ∀ c ∈ (t ++ s).head?, P c := by
  refine ht.forall_head?_append (fun word hword => ?_) hs
  obtain ⟨-, hword⟩ := Option.ite_none_right_eq_some.1 hword
  exact ⟨'m', ['u', 't'], (Option.some.inj hword).symm, hm⟩

theorem readMut_snd (s : List Char) : (readMut s).2 = (keyword? mutWord s).elim s trimStart := by
  rw [readMut]
  cases keyword? mutWord s <;> rfl

theorem readMut_spaced {isMutable : Bool} (ht : IsSpaced (mutWord? isMutable) t)
    (hs : ∀ c ∈ s.head?, isBlank c = false) (hm : keyword? mutWord s = none) :
    readMut (t ++ s) = (isMutable, s) := by
  cases isMutable with
  | true =>
    change IsSpaced (some mutWord) t at ht
    cases ht with
    | word hgap hblank =>
      have hk := keyword?_append mutWord (continuesWord_gap_append hgap hblank s)
      rw [List.append_assoc, readMut, hk]
      dsimp only
      rw [trimStart_blank_append hblank, trimStart_eq_self hs]
  | false =>
    change IsSpaced none t at ht
    cases ht
    rw [List.nil_append, readMut, hm]

theorem readLifetime?_of_ok {l rest : List Char} (h : readLifetime s = .ok (l, rest)) :
    readLifetime? s = .ok (some (String.ofList l), trimStart rest) := by
  obtain ⟨t, rfl⟩ := exists_quote_of_readLifetime h
  rw [readLifetime?, h]
  rfl

theorem readLifetime?_spaced {lifetime : Option String} (hl : ∀ l ∈ lifetime, IsLifetime l.toList)
    (ht : IsSpaced (lifetime.map String.toList) t)
    (hs : ∀ c ∈ s.head?, isBlank c = false ∧ c ≠ '\'') :
    readLifetime? (t ++ s) = .ok (lifetime, s) := by
  cases lifetime with
  | none =>
    cases ht
    rw [List.nil_append]
    unfold readLifetime?
    split
    · exact absurd rfl (hs '\'' rfl).2
    · rfl
  | some l =>
    cases ht with
    | word hgap hblank =>
      have hr := readLifetime_append (hl l rfl) (continuesWord_gap_append hgap hblank s)
      have htrim := trimStart_eq_self fun c hc => (hs c hc).1
      rw [List.append_assoc, readLifetime?_of_ok hr, trimStart_blank_append hblank, htrim,
        String.ofList_toList]

theorem readAmpersand_append {isReference : Bool} (ht : IsAmpersand isReference t)
    (hs : ∀ c ∈ s.head?, isBlank c = false ∧ (isReference = false → c ≠ '&')) :
    readAmpersand (trimStart (t ++ s)) = (isReference, s) := by
  have htrim : trimStart s = s := trimStart_eq_self fun c hc => (hs c hc).1
  cases ht with
  | present hblank =>
    rw [List.cons_append, trimStart_cons rfl, readAmpersand, trimStart_blank_append hblank, htrim]
  | absent =>
    rw [List.nil_append, htrim]
    unfold readAmpersand
    split
    · exact absurd rfl ((hs '&' rfl).2 rfl)
    · rfl

/-- Modifiers are read back from in front of anything that is not taken for one of them. -/
theorem read_spelled {m : Modifiers} (hl : ∀ l ∈ m.lifetime, IsLifetime l.toList)
    (ht : m.Spells t) (hs : Ends m.isReference s) : read (t ++ s) = .ok (m, s) := by
  obtain @⟨front, ampersand, lifetime, mutable, hfront, hamp, hlife, hmut⟩ := ht
  have hm := readMut_spaced hmut (fun c hc => (hs.first c hc).1) hs.mutable
  have hmutFirst := forall_head?_mutable hmut ⟨by decide, by decide, fun _ => by decide⟩ hs.first
  have hr := readLifetime?_spaced hl hlife fun c hc =>
    ⟨(hmutFirst c hc).1, (hmutFirst c hc).2.1⟩
  have hlifeFirst : ∀ c ∈ (lifetime ++ (mutable ++ s)).head?,
      isBlank c = false ∧ (m.isReference = false → c ≠ '&') := by
    refine hlife.forall_head?_append (fun word hword => ?_) fun c hc =>
      ⟨(hmutFirst c hc).1, (hmutFirst c hc).2.2⟩
    obtain ⟨l, hlife, rfl⟩ := Option.map_eq_some_iff.1 hword
    obtain ⟨name, -, hq⟩ := hl l hlife
    exact ⟨'\'', name, hq, by decide, fun _ => by decide⟩
  have ha := readAmpersand_append hamp hlifeFirst
  have htrim : trimStart (front ++ ampersand ++ lifetime ++ mutable ++ s) =
      trimStart (ampersand ++ (lifetime ++ (mutable ++ s))) := by
    simp only [List.append_assoc, trimStart_blank_append hfront]
  rw [read, htrim, ha, hr]
  simp only [Except.map, hm]

theorem spells_chars (m : Modifiers) : m.Spells m.chars := by
  obtain ⟨isReference, lifetime, isMutable⟩ := m
  have hspace {word : List Char} : IsSpaced (some word) (word ++ [' ']) :=
    .word (List.cons_ne_nil _ _) rfl
  have hamp : IsAmpersand isReference (if isReference then ['&'] else []) := by
    cases isReference
    · exact .absent
    · exact .present rfl
  have hlife : IsSpaced (lifetime.map String.toList)
      (lifetime.elim [] fun l => l.toList ++ [' ']) := by
    cases lifetime
    · exact .absent
    · exact hspace
  have hmut : IsSpaced (mutWord? isMutable) (if isMutable then mutWord ++ [' '] else []) := by
    cases isMutable
    · exact .absent
    · exact hspace
  have h := @Spells.mk ⟨isReference, lifetime, isMutable⟩ [] _ _ _ rfl hamp hlife hmut
  rwa [List.nil_append, List.append_assoc] at h

theorem read_chars {m : Modifiers} (hl : ∀ l ∈ m.lifetime, IsLifetime l.toList)
    (hs : Ends m.isReference s) : read (m.chars ++ s) = .ok (m, s) :=
  read_spelled hl (spells_chars m) hs

end Modifiers

end ApiSurface
