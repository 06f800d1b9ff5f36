import ApiSurface.Proofs.Source.Header
import ApiSurface.Proofs.Source.Lead
import ApiSurface.Proofs.Source.Piece
import ApiSurface.Proofs.TypeExpr.RoundTrip

namespace ApiSurface

open Text TopLevel
open ApiSurface.Bracket (Passes)

/-- The words that no owner may be: each means something else in the head of a block. -/
def headWords : List (List Char) := ["impl".toList, "dyn".toList, "for".toList, "where".toList]

/-- The name of an owner: an identifier that means nothing else in the head of a block. -/
structure IsOwner (s : List Char) : Prop where
  word : isIdentifier s = true
  plain : s ∉ headWords

/-- Characters that may stand outside brackets behind an owner's name: they begin no word and end no
head. -/
def isGap (c : Char) : Bool := !isWordChar c && c != '\x7b' && c != ';'

section Gap

variable {s : List Char}

/-- No keyword stands behind an owner's name. -/
theorem LacksWord.of_isGap {kw : List Char} (hk : isIdentifier kw = true) (hs : Passes isGap s) :
    LacksWord kw s := by
  apply of_passes hk
  apply hs.mono
  intro c hc
  simp only [isGap, Bool.and_eq_true] at hc
  exact hc.1.1

theorem Bracket.Passes.continuesWord_eq_false (hs : Passes isGap s) : continuesWord s = false := by
  cases s with
  | nil => rfl
  | cons c s =>
    have hc : isGap c = true := hs.outside (start, c, s) List.mem_cons_self
    simp only [isGap, Bool.and_eq_true, Bool.not_eq_true'] at hc
    exact hc.1.1

theorem IsHeader.of_passes (hs : Passes isGap s) : IsHeader s := by
  apply IsHeader.of_lacksWord (.of_isGap (by decide) hs)
  intro place hp
  have hc := hs.outside place hp
  simp only [isGap, Bool.and_eq_true, bne_iff_ne] at hc
  exact ⟨hc.1.2, hc.2⟩

theorem passes_blank : Passes isGap [' '] := .single rfl rfl (by decide) rfl

end Gap

/-- In a word and what stands behind it, only the word itself could be the keyword. -/
theorem TopLevel.splitKeyword?_word_append {kw word tail : List Char} (hk : isIdentifier kw = true)
    (hw : isIdentifier word = true) (hne : word ≠ kw) (ht : Passes isGap tail) :
    splitKeyword? kw (word ++ tail) = none :=
  splitKeyword?_eq_none hk <|
    (LacksWord.of_isIdentifier hk hw hne).append hk (.of_isGap hk ht) ht.continuesWord_eq_false

/-- No segment begins inside a word. -/
theorem Signature.lastSegmentFrom_word_append {word : List Char}
    (hw : ∀ c ∈ word, isWordChar c = true) (last rest : List Char) :
    lastSegmentFrom last (word ++ rest) = lastSegmentFrom last rest := by
  induction word with
  | nil => rfl
  | cons c word ih =>
    have hc : c ≠ ':' := ne_of_isWordChar (hw c List.mem_cons_self) rfl
    rw [List.cons_append, lastSegmentFrom]
    · exact ih fun d hd => hw d (List.mem_cons_of_mem c hd)
    · exact hc

/-- The last segment of identifiers joined by colons is the last of them. -/
theorem Signature.lastSegment_segments {first : List Char} {more : List (List Char)}
    (hf : isIdentifier first = true) (hm : ∀ word ∈ more, isIdentifier word = true) :
    lastSegment (first ++ more.flatMap ("::".toList ++ ·)) =
      (first :: more).getLast (List.cons_ne_nil _ _) := by
  rw [lastSegment]
  induction more generalizing first with
  | nil =>
    rw [List.flatMap_nil, lastSegmentFrom_word_append (forall_isWordChar_of_isIdentifier hf),
      List.append_nil]
    rfl
  | cons word more ih =>
    have hword := hm word List.mem_cons_self
    rw [lastSegmentFrom_word_append (forall_isWordChar_of_isIdentifier hf),
      List.getLast_cons (List.cons_ne_nil _ _)]
    -- Behind the two colons the segment that begins there is the last one so far.
    cases word with
    | nil => cases hword
    | cons c word =>
      have hc : ':' ≠ c :=
        (ne_of_isWordChar (forall_isWordChar_of_isIdentifier hword c List.mem_cons_self) rfl).symm
      have h := ih hword fun w hw => hm w (List.mem_cons_of_mem _ hw)
      simpa [lastSegmentFrom, strip?, hc] using h

namespace IsOwner

variable {owner : String}

/-- An owner is read as the path of a type, also where it is called `mut`. -/
theorem read_append (h : IsOwner owner.toList) (post : List Char)
    (hw : continuesWord post = false) (hc : post.head? ≠ some ':') :
    TypeExpr.read (owner.toList ++ post) =
      TypeExpr.namedWith (TypeExpr.readWithin ((owner.toList ++ post).length - 1)) owner post := by
  have hword := forall_isWordChar_of_isIdentifier h.word
  have himpl : keyword? "impl".toList (owner.toList ++ post) = none :=
    keyword?_eq_none_of_ne (by decide) hword hw fun he => h.plain (he ▸ by decide)
  have hdyn : keyword? "dyn".toList (owner.toList ++ post) = none :=
    keyword?_eq_none_of_ne (by decide) hword hw fun he => h.plain (he ▸ by decide)
  have hpath : readPath (owner.toList ++ [].flatMap ("::".toList ++ ·) ++ post) = _ :=
    readPath_segments h.word (List.forall_mem_nil _) hw hc
  rw [List.flatMap_nil, List.append_nil] at hpath
  have htrim := (IsTight.of_isIdentifier h.word).trimStart_append post
  obtain ⟨c, rest, he, hstart⟩ := exists_cons_of_isIdentifier h.word
  have hfront : owner.toList ++ post = c :: (rest ++ post) := by rw [he, List.cons_append]
  have hlength : (owner.toList ++ post).length = (owner.toList ++ post).length - 1 + 1 := by
    rw [hfront, List.length_cons, Nat.add_sub_cancel]
  rw [TypeExpr.read, hlength, Nat.add_sub_cancel, TypeExpr.readWithin]
  dsimp only
  rw [TypeExpr.level_word (htrim.trans hfront) hstart, ← hfront, himpl, hdyn, hpath]
  dsimp only
  rw [ok_bind, String.ofList_toList]

/-- An owner is read as the type of its name. -/
theorem ofText_owner (h : IsOwner owner.toList) :
    TypeExpr.ofText (owner.toList ++ [' ']) = .ok (.named owner []) := by
  have hblank : ∀ c ∈ (trimStart [' ']).head?, c ∉ ['<', '(', ':', '-'] := by
    intro c hc
    cases hc
  have hread := h.read_append [' '] rfl (by decide)
  rw [TypeExpr.namedWith_plain hblank] at hread
  exact TypeExpr.wholeWith_eq_ok hread rfl

theorem typeText_append (h : IsOwner owner.toList) {tail : List Char} (ht : Passes isGap tail) :
    Target.typeText (owner.toList ++ tail) = owner.toList ++ tail := by
  have hfor : splitKeyword? Target.forWord (owner.toList ++ tail) = none :=
    splitKeyword?_word_append rfl h.word (fun he => h.plain (he ▸ by decide)) ht
  rw [Target.typeText, hfor]

theorem isHeader_append (h : IsOwner owner.toList) {tail : List Char} (ht : Passes isGap tail) :
    IsHeader (owner.toList ++ tail) :=
  (IsHeader.of_isIdentifier h.word fun he => h.plain (he ▸ by decide)).append
    (IsHeader.of_passes ht) ht.continuesWord_eq_false

/-- All of a head that begins with an owner's name is header. -/
theorem isHeader_head (h : IsOwner owner.toList) {tail : List Char} (ht : Passes isGap tail) :
    IsHeader (Target.implWord ++ ' ' :: (owner.toList ++ tail)) :=
  (IsHeader.of_isIdentifier (by decide) (by decide)).append (h.isHeader_append ht).blank_cons rfl

/-- All line feeds of a head stand behind its owner's name. -/
theorem lineFeeds_head (h : IsOwner owner.toList) (tail : List Char) :
    lineFeeds (Target.implWord ++ ' ' :: (owner.toList ++ tail)) = lineFeeds tail := by
  have hword := forall_isWordChar_of_isIdentifier h.word
  have himpl : lineFeeds (Target.implWord ++ [' ']) = 0 := by decide
  have howner : lineFeeds owner.toList = 0 := by
    apply List.count_eq_zero_of_not_mem
    intro hm
    exact absurd (hword _ hm) (by decide)
  rw [← List.singleton_append, ← List.append_assoc, lineFeeds_append, himpl, lineFeeds_append,
    howner, Nat.zero_add, Nat.zero_add]

theorem ownerName?_named (h : IsOwner owner.toList) (args : List GenericArg) :
    (TypeExpr.named owner args).ownerName? = some owner := by
  have hlast := Signature.lastSegment_segments h.word (List.forall_mem_nil _)
  rw [List.flatMap_nil, List.append_nil, List.getLast_singleton] at hlast
  rw [TypeExpr.ownerName?, hlast, String.ofList_toList]

theorem ownerOfText_blank (h : IsOwner owner.toList) :
    Target.ownerOfText (owner.toList ++ [' ']) = .ok owner := by
  rw [Target.ownerOfText, h.ofText_owner, ok_bind, h.ownerName?_named]
  rfl

end IsOwner

/-- Nothing stands before the word `impl`. -/
theorem Lead.read_implWord (t : List Char) :
    Lead.read (Target.implWord ++ t) = .ok (⟨Signature.privateWord, []⟩, Target.implWord ++ t) := by
  have hword : Lead.BeginsWord (Target.implWord ++ t) := ⟨'i', _, rfl, by decide⟩
  exact Lead.read_chars .hidden (List.forall_mem_nil _) hword rfl

namespace Target

/-- What a head is read as: generic parameters and a clause are passed over, and what stands between
them names the owner. -/
theorem read_of_header {s named head tail block : List Char} (hs : continuesWord s = false)
    (hg : afterGenerics (trimStart s) = .ok named) (hh : header named = (head, tail))
    (hw : afterWhere (trimStart tail) = '\x7b' :: block) : read (implWord ++ s) =
      (ownerOfText (typeText head)).map fun owner => (owner, '\x7b' :: block) := by
  rw [read, Lead.read_implWord, ok_bind]
  dsimp only
  rw [afterKeyword, keyword?_append implWord hs, ok_bind, hg, ok_bind, hh]
  dsimp only
  rw [hw]
  cases ownerOfText (typeText head) <;> rfl

theorem afterGenerics_eq_ok {s : List Char} (hs : s.head? ≠ some '<') : afterGenerics s = .ok s := by
  unfold afterGenerics
  split
  · exact absurd rfl hs
  · rfl

/-- A head that begins with an owner's name is read up to the brace, and what it names is told by the
name and all that stands behind it. -/
theorem read_append {owner : String} (h : IsOwner owner.toList) {tail : List Char}
    (ht : Passes isGap tail) (rest : List Char) :
    read (implWord ++ ' ' :: (owner.toList ++ tail ++ '\x7b' :: rest)) =
      (ownerOfText (owner.toList ++ tail)).map fun owner => (owner, '\x7b' :: rest) := by
  have hstart : trimStart (' ' :: (owner.toList ++ tail ++ '\x7b' :: rest)) =
      owner.toList ++ tail ++ '\x7b' :: rest := by
    rw [trimStart_cons_blank rfl, List.append_assoc]
    exact (IsTight.of_isIdentifier h.word).trimStart_append _
  have hgenerics : afterGenerics (trimStart (' ' :: (owner.toList ++ tail ++ '\x7b' :: rest))) =
      .ok (owner.toList ++ tail ++ '\x7b' :: rest) := by
    rw [hstart]
    apply afterGenerics_eq_ok
    obtain ⟨c, word, hc⟩ := List.exists_cons_of_ne_nil (IsTight.of_isIdentifier h.word).ne_nil
    have hword := forall_isWordChar_of_isIdentifier h.word c (hc ▸ List.mem_cons_self)
    rw [hc]
    intro he
    rw [Option.some.inj he] at hword
    cases hword
  have hbrace : afterWhere (trimStart ('\x7b' :: rest)) = '\x7b' :: rest := by
    rw [trimStart_cons rfl, afterWhere_brace]
  rw [read_of_header (continuesWord_blank _) hgenerics
    ((h.isHeader_append ht).header_brace rest) hbrace, h.typeText_append ht]

end Target

open Target (implWord) in
/-- A block whose head is read is the piece in front of any text. -/
theorem Piece.next_of_read {owner : String} {head inner rest tail : List Char}
    (hl : Lead.read (head ++ '\x7b' :: (inner ++ '\x7d' :: rest)) =
      .ok (⟨Signature.privateWord, []⟩, implWord ++ tail)) (hw : continuesWord tail = false)
    (hr : Target.read (head ++ '\x7b' :: (inner ++ '\x7d' :: rest)) =
      .ok (owner, '\x7b' :: (inner ++ '\x7d' :: rest))) (hb : Bracket.curly.IsBalanced inner) :
    next (head ++ '\x7b' :: (inner ++ '\x7d' :: rest)) =
      (.ownerBlock owner (lineFeeds head) inner, rest) := by
  have hinner : Bracket.enclosed ('\x7b' :: (inner ++ '\x7d' :: rest)) = .ok (inner, rest) :=
    hb.enclosed (by decide) rest
  have himpl : (keyword? implWord (implWord ++ tail)).isSome = true := by
    rw [keyword?_append implWord hw]
    rfl
  rw [next_of_lead hl ⟨'i', _, rfl, rfl⟩, ofItem_of_impl hl himpl, ofBlock, hr]
  dsimp only
  rw [hinner]
  dsimp only
  rw [lineFeeds_append, Nat.add_sub_cancel]

open Target (implWord) in
/-- A block whose head names its owner is the piece in front of any text. -/
theorem Piece.next_of_ownerOfText {owner : String} (h : IsOwner owner.toList) {tail : List Char}
    (ht : Passes isGap tail) (ho : Target.ownerOfText (owner.toList ++ tail) = .ok owner)
    {inner : List Char} (hb : Bracket.curly.IsBalanced inner) (rest : List Char) :
    next (implWord ++ ' ' :: (owner.toList ++ tail ++ '\x7b' :: (inner ++ '\x7d' :: rest))) =
      (.ownerBlock owner (lineFeeds (implWord ++ ' ' :: (owner.toList ++ tail))) inner, rest) := by
  have hlead := Lead.read_implWord
    (' ' :: (owner.toList ++ tail ++ '\x7b' :: (inner ++ '\x7d' :: rest)))
  have hread := Target.read_append h ht (inner ++ '\x7d' :: rest)
  have hfront : implWord ++ ' ' :: (owner.toList ++ tail ++ '\x7b' :: (inner ++ '\x7d' :: rest)) =
      implWord ++ ' ' :: (owner.toList ++ tail) ++ '\x7b' :: (inner ++ '\x7d' :: rest) := by
    simp only [List.append_assoc, List.cons_append]
  have hblank := continuesWord_blank (owner.toList ++ tail ++ '\x7b' :: (inner ++ '\x7d' :: rest))
  rw [ho] at hread
  rw [hfront] at hlead hread ⊢
  exact next_of_read hlead hblank hread hb

open Target (implWord) in
/-- The block of a plain owner. -/
theorem Piece.next_block {owner : String} (h : IsOwner owner.toList) {inner : List Char}
    (hb : Bracket.curly.IsBalanced inner) (rest : List Char) :
    next (implWord ++ ' ' :: (owner.toList ++ ' ' :: '\x7b' :: (inner ++ '\x7d' :: rest))) =
      (.ownerBlock owner (lineFeeds (implWord ++ ' ' :: (owner.toList ++ [' ']))) inner, rest) := by
  have hn := next_of_ownerOfText h passes_blank h.ownerOfText_blank hb rest
  rw [List.append_assoc] at hn
  exact hn

end ApiSurface
