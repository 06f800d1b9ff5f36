import ApiSurface.Proofs.Parameter.Spelling

namespace ApiSurface

open Text
open ApiSurface.Bracket (Passes)

namespace Parameter

section Blank

variable {b s : List Char}

theorem Spells.blank_append {p : Parameter} (hb : isBlankText b = true) (hs : p.Spells s) :
    p.Spells (b ++ s) := by
  cases hs with
  | receiver hm hgap ha =>
    obtain ⟨hfront, hamp, hlife, hmut⟩ := hm
    have hm := Modifiers.Spells.mk (isBlankText_append hb hfront) hamp hlife hmut
    simpa only [List.append_assoc] using Spells.receiver hm hgap ha
  | @typed name type _ _ _ _ _ _ hfront hm hbefore hafter hback =>
    have h : (Parameter.typed name type).Spells _ :=
      .typed (isBlankText_append hb hfront) hm hbefore hafter hback
    simpa only [List.append_assoc] using h

theorem AreSpelled.blank_append {ps : List Parameter} (hb : isBlankText b = true)
    (hs : AreSpelled ps s) : AreSpelled ps (b ++ s) := by
  cases hs with
  | nil h => exact .nil (isBlankText_append hb h)
  | last h => exact .last (h.blank_append hb)
  | cons h hmore =>
    rw [← List.append_assoc]
    exact .cons (h.blank_append hb) hmore

end Blank

section Written

theorem spells_chars (p : Parameter) : p.Spells p.chars := by
  cases p with
  | receiver m =>
    have h := @Spells.receiver m _ [] [] m.spells_chars rfl .absent
    rwa [List.append_nil, List.append_nil] at h
  | typed name type =>
    have h := @Spells.typed name type false [] [] [] [' '] [] rfl .absent rfl rfl rfl
    rwa [List.append_nil, List.append_nil] at h

theorem WellFormed.passes_chars {p : Parameter} (hp : p.WellFormed) : Passes isTypeChar p.chars :=
  hp.passes p.spells_chars

/-- What is written of the parameters after the first one has a blank in front. -/
theorem areSpelled_intercalate (ps : List Parameter) :
    AreSpelled ps (", ".toList.intercalate (ps.map chars)) := by
  induction ps with
  | nil => exact .nil rfl
  | cons p ps ih =>
    cases ps with
    | nil =>
      rw [List.map_singleton, List.intercalate_singleton]
      exact .last p.spells_chars
    | cons q ps =>
      rw [List.map_cons, List.map_cons, List.intercalate_cons_cons, List.append_assoc,
        ← List.map_cons]
      exact .cons p.spells_chars (ih.blank_append (b := [' ']) rfl)

/-- A written list of parameters is read back whole. -/
theorem ofText_intercalate {ps : List Parameter} (hp : AreListed ps) :
    ofText (", ".toList.intercalate (ps.map chars)) = .ok ps := by
  cases ps with
  | nil => exact ofText_blank rfl
  | cons p ps =>
    cases ps with
    | nil =>
      rw [List.map_singleton, List.intercalate_singleton]
      exact ofText_single hp p.spells_chars
    | cons q ps =>
      have hmore := readTypedAll_spelled (fun r hr => hp.each r (List.mem_cons_of_mem _ hr))
        hp.receiverFirst ((areSpelled_intercalate (q :: ps)).blank_append (b := [' ']) rfl)
      rw [List.map_cons, List.map_cons, List.intercalate_cons_cons, List.append_assoc,
        ← List.map_cons]
      exact ofText_first hp p.spells_chars (some _) hmore

end Written

end Parameter

end ApiSurface
