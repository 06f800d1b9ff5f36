import ApiSurface.Proofs.Nesting.Keyword
import ApiSurface.Proofs.Text.Trim

namespace ApiSurface

open Text TopLevel
open ApiSurface.Bracket

/-- The text in brackets of a kind. -/
def Bracket.group (b : Bracket) (x : List Char) : List Char := b.opener :: x ++ [b.closer]

namespace Bracket

variable {b : Bracket} {x : List Char}

theorem group_append (b : Bracket) (x y : List Char) :
    b.group x ++ y = b.opener :: x ++ b.closer :: y := by
  rw [group, List.append_assoc]
  rfl

theorem lastAfter_group (b : Bracket) (prev : Char) (x : List Char) :
    lastAfter prev (b.group x) = b.closer := by
  rw [group, lastAfter_append]
  rfl

theorem lastAfter_ne_hyphen (h : x.getLast? ≠ some '-') : lastAfter start x ≠ '-' := by
  rw [lastAfter_eq]
  cases hx : x.getLast? with
  | none => decide
  | some c =>
    rw [hx] at h
    exact fun hc => h (congrArg some hc)

/-- Outside all brackets a group has its opener only. -/
theorem passes_group (hx : IsNested x) (hl : b = .angle → x.getLast? ≠ some '-') :
    Passes (· == b.opener) (b.group x) :=
  Passes.enclose b hx (fun hb => lastAfter_ne_hyphen (hl hb)) (beq_self_eq_true b.opener)

end Bracket

namespace TopLevel

section Restart

variable {prev : Char}

theorem splitKeywordFrom_restart (hw : isWordChar prev = false) (kw s : List Char) :
    splitKeywordFrom kw 0 prev s = splitKeyword? kw s := by
  have hstart : isWordChar start = false := rfl
  cases s with
  | nil => rfl
  | cons c s =>
    rw [splitKeyword?, splitKeywordFrom, splitKeywordFrom, hw, hstart, step_zero, step_zero]

theorem headerFrom_restart (hw : isWordChar prev = false) (s : List Char) :
    headerFrom 0 prev s = header s := by
  have hstart : isWordChar start = false := rfl
  cases s with
  | nil => rfl
  | cons c s =>
    rw [header, headerFrom, headerFrom, endsHeader, endsHeader, hw, hstart, headerStep, headerStep,
      step_zero, step_zero]

end Restart

section Group

variable {b : Bracket} {x : List Char} (hx : IsNested x) (hl : b = .angle → x.getLast? ≠ some '-')
include hx hl

theorem nest_group (prev : Char) : nest [] prev (b.group x) = some [] :=
  (passes_group hx hl).nested.nest [] prev

theorem passes_group_of_ne {sep : Char} (hs : sep ≠ b.opener) : Passes (· != sep) (b.group x) :=
  (passes_group hx hl).mono fun c hc => by
    rw [beq_iff_eq.1 hc, bne_iff_ne]
    exact hs.symm

theorem splitKeywordFrom_group {kw : List Char} (hk : isIdentifier kw = true) (prev : Char)
    (y : List Char) : splitKeywordFrom kw 0 prev (b.group x ++ y) =
      (splitKeyword? kw y).map (Prod.map (b.group x ++ ·) id) := by
  rw [← splitKeywordFrom_restart b.isWordChar_closer, ← lastAfter_group b prev x]
  refine splitKeywordFrom_of_nest (nest_group hx hl prev) y fun place hp _ => ?_
  rw [beq_iff_eq.1 ((passes_group hx hl).outsideFrom prev place hp), spacedKeyword?,
    keyword?_eq_none_of_not_isWordChar hk b.isWordChar_opener, Option.filter_none]

theorem headerFrom_group (hb : b ≠ .curly) (prev : Char) (y : List Char) :
    headerFrom 0 prev (b.group x ++ y) = (header y).map (b.group x ++ ·) id := by
  rw [← headerFrom_restart b.isWordChar_closer, ← lastAfter_group b prev x]
  refine headerFrom_of_nest (nest_group hx hl prev) (by simp) y fun place hp => ?_
  have hword : isIdentifier whereWord = true := by decide
  rw [beq_iff_eq.1 ((passes_group hx hl).outsideFrom prev place hp), endsHeader,
    keyword?_eq_none_of_not_isWordChar hword b.isWordChar_opener]
  cases b with
  | curly => exact absurd rfl hb
  | round | square | angle => simp [opener]

end Group

/-- What the pieces of a text are, trimmed and without the empty ones. -/
theorem split_eq_of_pieces {sep : Char} {s piece : List Char} {more : List (List Char)}
    (h : piecesFrom sep 0 start s = (piece, more)) (hp : trim piece ≠ []) :
    split sep s = trim piece :: (more.map trim).filter (!·.isEmpty) := by
  have hne : (trim piece).isEmpty = false := by simpa using hp
  rw [split, pieces, h, List.map_cons, List.filter_cons, hne]
  rfl

end TopLevel

/-- A bracket around nested text encloses it, and outside brackets all scanners take the two as one
unit: separators and keywords are looked for, and the end of a header, in what follows only, as if it
stood alone. -/
theorem Bracket.IsNested.group_isUnit {b : Bracket} {x : List Char} (hx : IsNested x)
    (hl : b = .angle → x.getLast? ≠ some '-') (y : List Char) :
    Bracket.enclosed (b.group x ++ y) = .ok (x, y) ∧
    (∀ sep, sep ≠ b.opener →
      (∀ prev, splitOnceFrom sep 0 prev (b.group x ++ y) =
        (splitOnce sep y).map (b.group x ++ ·) id) ∧
      ∃ piece more, pieces sep y = piece :: more ∧
        (∀ prev, piecesFrom sep 0 prev (b.group x ++ y) = (b.group x ++ piece, more)) ∧
        split sep (b.group x ++ y) =
          trim (b.group x ++ piece) :: (more.map trim).filter (!·.isEmpty)) ∧
    (∀ kw, isIdentifier kw = true → ∀ prev, splitKeywordFrom kw 0 prev (b.group x ++ y) =
      (splitKeyword? kw y).map (Prod.map (b.group x ++ ·) id)) ∧
    (b ≠ .curly → ∀ prev, headerFrom 0 prev (b.group x ++ y) =
      (header y).map (b.group x ++ ·) id) := by
  have hpass {sep : Char} (hs : sep ≠ b.opener) := passes_group_of_ne hx hl hs
  refine ⟨?_, fun sep hs =>
      ⟨fun prev => (isScan_splitOnceFrom sep).append (hpass hs) prev y, ?_⟩,
    fun kw hk prev => splitKeywordFrom_group hx hl hk prev y,
    fun hb prev => headerFrom_group hx hl hb prev y⟩
  · rw [group_append]
    exact hx.enclosed (fun hb => lastAfter_ne_hyphen (hl hb)) y
  · have hpieces := fun prev => (isScan_piecesFrom sep).append (hpass hs) prev y
    have htrim : trim (b.group x ++ (piecesFrom sep 0 start y).1) ≠ [] := by
      rw [Ne, trim_eq_nil_iff, group_append, List.cons_append, isBlankText, List.all_cons,
        b.isBlank_opener]
      simp
    exact ⟨_, _, rfl, hpieces, split_eq_of_pieces (hpieces start) htrim⟩

/-- Type arguments with a list, an array and an arrow in them, in front of one more parameter. -/
theorem Bracket.IsNested.group_isUnit_typeArguments :
    let x := "Fn(u8, i8) -> [T; 2], where B".toList
    let y := ", c; d".toList
    (IsNested x ∧ x.getLast? ≠ some '-') ∧
      Bracket.enclosed (angle.group x ++ y) = .ok (x, y) ∧
      splitOnce ',' (angle.group x ++ y) = (angle.group x, some " c; d".toList) ∧
      splitKeyword? whereWord (angle.group x ++ y) = none ∧
      header (angle.group x ++ y) = (angle.group x ++ ", c".toList, "; d".toList) := by
  intro x y
  have hx : IsNested x := by decide
  have hl : x.getLast? ≠ some '-' := by decide
  obtain ⟨henclosed, hsplit, hkeyword, hheader⟩ := group_isUnit (b := angle) hx (fun _ => hl) y
  refine ⟨⟨hx, hl⟩, henclosed, ((hsplit ',' (by decide)).1 start).trans (by decide), ?_, ?_⟩
  · exact (hkeyword whereWord (by decide) start).trans (by decide)
  · exact (hheader (by decide) start).trans (by decide)

end ApiSurface
