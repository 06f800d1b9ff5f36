import ApiSurface.Proofs.Source.Header
import ApiSurface.Proofs.Source.Lead
import ApiSurface.Source.Piece

namespace ApiSurface

open Text TopLevel
open ApiSurface.Bracket (enclosed)

/-- A function that was read ends in its body, in braces and balanced. -/
theorem FunctionItem.body_of_read {s rest : List Char} {item : FunctionItem}
    (h : FunctionItem.read s = .ok (item, rest)) :
    Bracket.curly.IsBalanced item.body.toList ∧
      ∃ head, s = head ++ '\x7b' :: (item.body.toList ++ '\x7d' :: rest) := by
  obtain ⟨⟨lead, r₁⟩, h₁, h⟩ := bind_eq_ok_iff.1 h
  obtain ⟨r₂, h₂, h⟩ := bind_eq_ok_iff.1 h
  obtain ⟨⟨name, r₃⟩, h₃, h⟩ := bind_eq_ok_iff.1 h
  obtain ⟨⟨generics, r₄⟩, h₄, h⟩ := bind_eq_ok_iff.1 h
  obtain ⟨⟨parameters, r₅⟩, h₅, h⟩ := bind_eq_ok_iff.1 h
  obtain ⟨⟨returnType, r₆⟩, h₆, h⟩ := bind_eq_ok_iff.1 h
  obtain ⟨⟨body, r₇⟩, h₇, h⟩ := bind_eq_ok_iff.1 h
  obtain ⟨rfl, rfl⟩ := Prod.mk.inj (Except.ok.inj h)
  have hs : afterWhere r₆ <:+ s := (afterWhere_suffix r₆).trans <|
    (readReturnType_keeps h₆).trans <| (readParameters_keeps _ h₅).trans <|
    (readGenerics_keeps h₄).trans <| (trimStart_suffix r₃).trans <|
    (readIdentifier_advances h₃).1.trans <| (trimStart_suffix r₂).trans <|
    (afterKeyword_suffix h₂).trans (Lead.read_keeps h₁)
  unfold readBody at h₇
  split at h₇
  · rename_i block hblock
    obtain ⟨⟨inner, after⟩, hi, hp⟩ := map_eq_ok_iff.1 h₇
    obtain ⟨rfl, rfl⟩ := Prod.mk.inj hp
    have hb : block = inner ++ '\x7d' :: after := Bracket.eq_of_enclosed_opener (b := .curly) hi
    obtain ⟨head, rfl⟩ := hs
    rw [String.toList_ofList]
    refine ⟨Bracket.isBalanced_of_enclosed (by decide) hi, head, ?_⟩
    rw [hblock, hb]
    rfl
  · cases h₇

theorem Target.brace_of_read {s block : List Char} {owner : String}
    (h : Target.read s = .ok (owner, block)) : ∃ rest, block = '\x7b' :: rest := by
  obtain ⟨⟨lead, r₁⟩, h₁, h⟩ := bind_eq_ok_iff.1 h
  obtain ⟨r₂, h₂, h⟩ := bind_eq_ok_iff.1 h
  obtain ⟨r₃, h₃, h⟩ := bind_eq_ok_iff.1 h
  dsimp only at h
  split at h
  · rename_i rest hb
    obtain ⟨name, -, h⟩ := bind_eq_ok_iff.1 h
    obtain ⟨-, rfl⟩ := Prod.mk.inj (Except.ok.inj h)
    exact ⟨rest, rfl⟩
  · simp [throw, throwThe, MonadExceptOf.throw] at h

namespace Piece

variable {s rest : List Char}

/-- An item that could not be read takes its header and its block. -/
theorem afterItem_append {head body : List Char} (hh : IsHeader head)
    (hb : Bracket.curly.IsBalanced body) (post : List Char) :
    afterItem (head ++ '\x7b' :: (body ++ '\x7d' :: post)) = post := by
  have hk : keyword? whereWord ('\x7b' :: (body ++ '\x7d' :: post)) = none :=
    keyword?_eq_none_of_head (by decide)
  have he : enclosed ('\x7b' :: (body ++ '\x7d' :: post)) = .ok (body, post) :=
    hb.enclosed (by decide) post
  unfold afterItem
  rw [hh.header_brace]
  simp only [hk, Option.elim_none, he]

section DocLine

variable {line : List Char}

theorem afterLine_docLine (hl : '\n' ∉ line) (rest : List Char) :
    afterLine ("///".toList ++ (line ++ '\n' :: rest)) = rest := by
  rw [← List.append_assoc]
  refine afterLine_append ?_ rest
  rw [List.mem_append, not_or]
  exact ⟨by decide, hl⟩

theorem next_docLine (hl : '\n' ∉ line) (hs : line.head? ≠ some '/') (rest : List Char) :
    next ("///".toList ++ (line ++ '\n' :: rest)) =
      (.docLine (String.ofList (dropEndWhile (· == '\r') line)), rest) := by
  have hh : (line ++ '\n' :: rest).head? ≠ some '/' := by
    cases line with
    | nil => simp
    | cons c line => exact hs
  rw [next, strip?_append]
  dsimp only
  rw [if_neg hh, afterLine_docLine hl, docText, takeWhile_line_append hl]

/-- Four slashes begin a remark. -/
theorem next_slashes (hl : '\n' ∉ line) (hs : line.head? = some '/') (rest : List Char) :
    next ("///".toList ++ (line ++ '\n' :: rest)) = (.remark, rest) := by
  have hh : (line ++ '\n' :: rest).head? = some '/' := by
    cases line with
    | nil => cases hs
    | cons c line => exact hs
  rw [next, strip?_append]
  dsimp only
  rw [if_pos hh, afterLine_docLine hl]

end DocLine

/-- No comment and no attribute begins where the lead of an item does. -/
theorem next_of_lead {lead : Lead} (hl : Lead.read s = .ok (lead, rest))
    (hr : ∃ c rest', rest = c :: rest' ∧ isWordChar c = true) : next s = ofItem s := by
  cases s with
  | nil => rfl
  | cons c s =>
    have hc : c ≠ '/' ∧ c ≠ '#' := by
      rw [← not_or]
      intro hc
      rw [Lead.read_of_mark hc] at hl
      obtain ⟨d, rest', rfl, hd⟩ := hr
      obtain ⟨-, he⟩ := Prod.mk.inj (Except.ok.inj hl)
      obtain ⟨rfl, -⟩ := List.cons.inj he
      rcases hc with rfl | rfl <;> cases hd
    simp [next, startsWith, strip?, Ne.symm hc.1, Ne.symm hc.2]

section Item

variable {lead : Lead}

theorem ofItem_of_fn (hl : Lead.read s = .ok (lead, rest))
    (hk : (keyword? FunctionItem.fnWord rest).isSome) : ofItem s = ofFunction s := by
  rw [ofItem, hl]
  exact if_pos hk

theorem ofItem_of_impl (hl : Lead.read s = .ok (lead, rest))
    (hk : (keyword? Target.implWord rest).isSome) : ofItem s = ofBlock s := by
  obtain ⟨after, ha⟩ := Option.isSome_iff_exists.1 hk
  obtain ⟨rfl, -⟩ := keyword?_eq_some_iff.1 ha
  have hfn : keyword? FunctionItem.fnWord (Target.implWord ++ after) = none :=
    keyword?_eq_none_of_head (by decide)
  rw [ofItem, hl]
  dsimp only
  rw [hfn, if_neg (by simp), if_pos hk]

end Item

section Inversion

theorem fst_ofAttribute (s : List Char) :
    (ofAttribute s).1 = .remark ∨ ∃ fault, (ofAttribute s).1 = .openAttribute fault := by
  unfold ofAttribute
  split
  · exact .inl rfl
  · exact .inr ⟨_, rfl⟩

theorem fst_ofItem_ne_docLine (s : List Char) (text : String) : (ofItem s).1 ≠ .docLine text := by
  unfold ofItem ofFunction ofBlock
  repeat' split
  all_goals
    intro h
    cases h

/-- A doc line ends at a line feed, or nothing comes after it. -/
theorem docLine_of_next {text : String} (h : next s = (.docLine text, rest)) :
    ∃ line, '\n' ∉ line ∧ line.head? ≠ some '/' ∧
      text = String.ofList (dropEndWhile (· == '\r') line) ∧
      (s = "///".toList ++ (line ++ '\n' :: rest) ∨ rest = []) := by
  unfold next at h
  split at h
  · rename_i after hs
    obtain rfl := strip?_eq_some_iff.1 hs
    obtain ⟨line, hl, htake, hline⟩ := exists_line after
    split at h
    · cases h
    · rename_i hslash
      obtain ⟨htext, rfl⟩ := Prod.mk.inj h
      refine ⟨line, hl, ?_, ?_, ?_⟩
      · cases line with
        | nil => simp
        | cons c line =>
          obtain hline | ⟨hline, -⟩ := hline <;> rw [hline] at hslash <;> exact hslash
      · rw [← htake]
        exact (Piece.docLine.inj htext).symm
      · obtain hline | ⟨-, hend⟩ := hline
        · exact .inl (congrArg ("///".toList ++ ·) hline)
        · exact .inr hend
  · exfalso
    repeat' split at h
    · simp at h
    · simp at h
    · have hfst := congrArg Prod.fst h
      obtain ha | ⟨fault, ha⟩ := fst_ofAttribute s <;> simp [ha] at hfst
    · exact fst_ofItem_ne_docLine s text (congrArg Prod.fst h)

/-- A piece that no comment and no attribute is taken for is an item. -/
theorem ofItem_of_next {piece : Piece} (h : next s = (piece, rest))
    (hd : ∀ text, piece ≠ .docLine text) (hr : piece ≠ .remark)
    (ha : ∀ fault, piece ≠ .openAttribute fault) : ofItem s = (piece, rest) := by
  unfold next at h
  repeat' split at h
  · exact absurd (congrArg Prod.fst h).symm hr
  · exact absurd (congrArg Prod.fst h).symm (hd _)
  · exact absurd (congrArg Prod.fst h).symm hr
  · exact absurd (congrArg Prod.fst h).symm hr
  · obtain hattr | ⟨fault, hattr⟩ := fst_ofAttribute s
    · exact absurd ((congrArg Prod.fst h).symm.trans hattr) hr
    · exact absurd ((congrArg Prod.fst h).symm.trans hattr) (ha fault)
  · exact h

theorem function_of_next {item : FunctionItem} (h : next s = (.function item, rest)) :
    FunctionItem.read s = .ok (item, rest) := by
  have hi := ofItem_of_next h (by simp) (by simp) (by simp)
  unfold ofItem at hi
  split at hi
  · simp at hi
  split at hi
  · unfold ofFunction at hi
    split at hi
    · rename_i hread
      obtain ⟨hitem, rfl⟩ := Prod.mk.inj hi
      rw [hread, Piece.function.inj hitem]
    · simp at hi
  · unfold ofBlock at hi
    repeat' split at hi
    all_goals simp at hi

/-- A block ends in its text in braces. -/
theorem ownerBlock_of_next {owner : String} {feeds : Nat} {inner taken : List Char}
    (h : next (taken ++ rest) = (.ownerBlock owner feeds inner, rest)) :
    ∃ front, taken = front ++ '\x7b' :: (inner ++ ['\x7d']) ∧ feeds = lineFeeds front := by
  have hi := ofItem_of_next h (by simp) (by simp) (by simp)
  unfold ofItem at hi
  split at hi
  · simp at hi
  split at hi
  · unfold ofFunction at hi
    split at hi <;> simp at hi
  split at hi
  · unfold ofBlock at hi
    split at hi
    · simp at hi
    rename_i block hread
    split at hi
    · rename_i hinner
      simp only [Prod.mk.injEq, Piece.ownerBlock.injEq] at hi
      obtain ⟨⟨-, rfl, rfl⟩, rfl⟩ := hi
      obtain ⟨front, hs⟩ := Target.read_keeps hread
      obtain ⟨block, rfl⟩ := Target.brace_of_read hread
      have hb : block = _ ++ Bracket.curly.closer :: _ := Bracket.eq_of_enclosed_opener hinner
      refine ⟨front, ?_, ?_⟩
      · apply List.append_cancel_right
        rw [← hs, hb]
        simp only [List.append_assoc, List.cons_append, List.nil_append]
        rfl
      · rw [← hs, lineFeeds_append, Nat.add_sub_cancel]
    · simp at hi
  · repeat' split at hi
    all_goals simp at hi

end Inversion

end Piece

end ApiSurface
