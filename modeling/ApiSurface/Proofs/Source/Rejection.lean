import ApiSurface.Proofs.Source.Outcome
import ApiSurface.Proofs.Source.Piece

namespace ApiSurface

open Text TopLevel

/-- Lines that begin with three slashes or more, with white space around them. -/
inductive IsDocText : List Char → Prop
  | blank {s : List Char} (h : isBlankText s = true) : IsDocText s
  | line {indent text rest : List Char} (blank : isBlankText indent = true) (one : '\n' ∉ text)
      (more : IsDocText rest) : IsDocText (indent ++ ("///".toList ++ (text ++ '\n' :: rest)))

/-- The item at the front of `s`, of the kind that the text `rest` after its lead begins with, cannot
be read. -/
def IsRejected (rest s : List Char) (fault : Fault) : Prop :=
  (keyword? FunctionItem.fnWord rest).isSome ∧ FunctionItem.read s = .error fault ∨
    (keyword? Target.implWord rest).isSome ∧ Target.read s = .error fault

namespace Piece

variable {rest s : List Char} {fault : Fault} {lead : Lead}

/-- A rejected item is passed over whole. -/
theorem next_of_isRejected (hl : Lead.read s = .ok (lead, rest)) (hr : IsRejected rest s fault) :
    next s = (.rejected fault none, afterItem s) := by
  have hword : ∃ c rest', rest = c :: rest' ∧ isWordChar c = true := by
    obtain ⟨hk, -⟩ | ⟨hk, -⟩ := hr
    · obtain ⟨after, ha⟩ := Option.isSome_iff_exists.1 hk
      exact ⟨'f', 'n' :: after, (keyword?_eq_some_iff.1 ha).1, rfl⟩
    · obtain ⟨after, ha⟩ := Option.isSome_iff_exists.1 hk
      exact ⟨'i', 'm' :: 'p' :: 'l' :: after, (keyword?_eq_some_iff.1 ha).1, rfl⟩
  rw [next_of_lead hl hword]
  obtain ⟨hk, hread⟩ | ⟨hk, hread⟩ := hr
  · rw [ofItem_of_fn hl hk, ofFunction, hread]
  · rw [ofItem_of_impl hl hk, ofBlock, hread]

end Piece

namespace Outcome

variable (file : String) (owner : Option String)

/-- One doc line takes one line, and what waits for an item is told by it alone. -/
theorem ofText_slashes {text : List Char} (ht : '\n' ∉ text) (line : Nat) (docs : List String) :
    ∃ docs', ∀ s, ofText file owner line docs ("///".toList ++ (text ++ '\n' :: s)) =
      ofText file owner (line + 1) docs' s := by
  by_cases hh : text.head? = some '/'
  · exact ⟨docs, fun s => ofText_line ht (Piece.next_slashes ht hh s)⟩
  · exact ⟨docs ++ [String.ofList (dropEndWhile (· == '\r') text)],
      fun s => ofText_line ht (Piece.next_docLine ht hh s)⟩

/-- Doc lines only move the line and add to what waits for an item. -/
theorem ofText_docText {d : List Char} (hd : IsDocText d) (line : Nat) (docs : List String) :
    ∃ docs', ∀ s, ofText file owner line docs (d ++ s) =
      ofText file owner (line + lineFeeds d) docs' s := by
  induction hd generalizing line docs with
  | blank hb => exact ⟨docs, fun s => ofText_blank_append hb⟩
  | @line indent text rest hb ht _ ih =>
    obtain ⟨docs', hline⟩ := ofText_slashes file owner ht (line + lineFeeds indent) docs
    obtain ⟨docs'', hmore⟩ := ih (line + lineFeeds indent + 1) docs'
    refine ⟨docs'', ?_⟩
    intro s
    have hfeeds : lineFeeds (indent ++ ("///".toList ++ (text ++ '\n' :: rest))) =
        lineFeeds indent + (1 + lineFeeds rest) := by
      have hslashes : List.count '\n' "///".toList = 0 := rfl
      have htext := List.count_eq_zero_of_not_mem ht
      simp only [lineFeeds, List.count_append, List.count_cons_self]
      omega
    simp only [List.append_assoc, List.cons_append]
    rw [ofText_blank_append hb, hline, hmore, hfeeds, Nat.add_assoc, Nat.add_assoc]

/-- One rejected item: its diagnostic, and the text after its block as if nothing stood before it. -/
theorem ofText_rejected {head body post rest : List Char} {lead : Lead} {fault : Fault}
    (hf : ∀ c ∈ head.head?, isBlank c = false) (hl : Lead.read head = .ok (lead, rest))
    (hh : IsHeader head) (hb : Bracket.curly.IsBalanced body)
    (hr : IsRejected rest (head ++ '\x7b' :: (body ++ '\x7d' :: post)) fault) (line : Nat)
    (docs : List String) :
    ofText file owner line docs (head ++ '\x7b' :: (body ++ '\x7d' :: post)) =
      ofDiagnostic (.ofFault file line fault owner) ++
        ofText file owner (line + lineFeeds (head ++ '\x7b' :: (body ++ ['\x7d']))) [] post := by
  have hne : rest ≠ [] := by
    intro hnil
    rw [hnil] at hr
    rcases hr with ⟨hk, -⟩ | ⟨hk, -⟩ <;> cases hk
  have hlead := Lead.read_append (t := '\x7b' :: (body ++ '\x7d' :: post)) hl hne rfl
  have hr' : IsRejected (rest ++ '\x7b' :: (body ++ '\x7d' :: post))
      (head ++ '\x7b' :: (body ++ '\x7d' :: post)) fault := by
    rw [IsRejected, keyword?_append_right (by decide) rfl, keyword?_append_right (by decide) rfl,
      Option.isSome_map, Option.isSome_map]
    exact hr
  have hn := Piece.next_of_isRejected hlead hr'
  rw [Piece.afterItem_append hh hb] at hn
  have happend : head ++ '\x7b' :: (body ++ '\x7d' :: post) =
      (head ++ '\x7b' :: (body ++ ['\x7d'])) ++ post := by
    simp only [List.append_assoc, List.cons_append, List.nil_append]
  have htrim : trimStart (head ++ '\x7b' :: (body ++ '\x7d' :: post)) =
      head ++ '\x7b' :: (body ++ '\x7d' :: post) := by
    apply trimStart_eq_self
    intro c hc
    cases head with
    | nil =>
      obtain rfl : '\x7b' = c := Option.some.inj hc
      rfl
    | cons d head => exact hf c hc
  rw [happend] at hn htrim ⊢
  rw [ofText_piece_append (by simp) htrim hn]
  rfl

end Outcome

open Outcome

/-- Nothing inside the block of a rejected item is read as an item, and the doc lines above it
document nothing. -/
theorem parseSource_rejected (file : String) {docs head body post rest : List Char} {lead : Lead}
    {fault : Fault} (hd : IsDocText docs) (hf : ∀ c ∈ head.head?, isBlank c = false)
    (hl : Lead.read head = .ok (lead, rest)) (hh : IsHeader head)
    (hb : Bracket.curly.IsBalanced body)
    (hr : IsRejected rest (head ++ '\x7b' :: (body ++ '\x7d' :: post)) fault) :
    parseSource file (docs ++ (head ++ '\x7b' :: (body ++ '\x7d' :: post))) =
      ofDiagnostic (.ofFault file (1 + lineFeeds docs) fault none) ++
        (parseSource file post).movedDown
          (lineFeeds (docs ++ (head ++ '\x7b' :: (body ++ ['\x7d'])))) := by
  obtain ⟨docs', hdocs⟩ := ofText_docText file none hd 1 []
  rw [parseSource, hdocs, ofText_rejected file none hf hl hh hb hr, Nat.add_assoc,
    ← lineFeeds_append, ofText_add_line, parseSource]

theorem parseSource_rejected_nested :
    parseSource "a.rs" ("/// lost\npub fn 9(x: [u8; \x7b3\x7d]) -> u8 " ++
        "\x7b fn inner() \x7b\x7d \x7d\nfn kept() \x7b\x7d").toList =
      ofDiagnostic (.ofFault "a.rs" 2
          (.invalidIdentifier "9(x: [u8; \x7b3\x7d]) -> u8 \x7b fn in...") none) ++
        (parseSource "a.rs" "\nfn kept() \x7b\x7d".toList).movedDown 1 := by
  have hdocs : IsDocText ([] ++ ("///".toList ++ (" lost".toList ++ ['\n']))) :=
    .line rfl (by decide) (.blank rfl)
  have hlead : Lead.read "pub fn 9(x: [u8; \x7b3\x7d]) -> u8 ".toList =
      .ok (⟨"pub", []⟩, "fn 9(x: [u8; \x7b3\x7d]) -> u8 ".toList) :=
    bind_eq_ok_iff.2 ⟨_, rfl, bind_eq_ok_iff.2 ⟨_, Lead.readQualifiers_of_none rfl, rfl⟩⟩
  have hread : FunctionItem.read ("pub fn 9(x: [u8; \x7b3\x7d]) -> u8 ".toList ++
      '\x7b' :: (" fn inner() \x7b\x7d ".toList ++ '\x7d' :: "\nfn kept() \x7b\x7d".toList)) =
      .error (.invalidIdentifier "9(x: [u8; \x7b3\x7d]) -> u8 \x7b fn in...") := by
    rw [FunctionItem.read, Lead.read_append hlead (by decide) rfl]
    rfl
  have hfirst : ∀ c ∈ ("pub fn 9(x: [u8; \x7b3\x7d]) -> u8 ".toList).head?, isBlank c = false := by
    intro c hc
    obtain rfl : 'p' = c := Option.some.inj hc
    rfl
  exact parseSource_rejected "a.rs" hdocs hfirst hlead ⟨by decide, by decide⟩ (by decide)
    (.inl ⟨rfl, hread⟩)

end ApiSurface
