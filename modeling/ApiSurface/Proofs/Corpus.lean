import ApiSurface.Corpus

namespace ApiSurface

namespace SourceFile

/-- The path and the text, each cut at its zero characters. -/
def pieces (source : SourceFile) : List (List Char) :=
  source.path.toList.splitOn '\x00' ++ source.text.toList.splitOn '\x00'

/-- What the digest is taken of, as characters. -/
def frame (source : SourceFile) : List Char :=
  source.path.toList ++ '\x00' :: (source.text.toList ++ ['\x00'])

structure IsZeroFree (source : SourceFile) : Prop where
  path : '\x00' ∉ source.path.toList
  text : '\x00' ∉ source.text.toList

theorem pieces_of_isZeroFree {source : SourceFile} (h : source.IsZeroFree) :
    source.pieces = [source.path.toList, source.text.toList] := by
  rw [pieces, List.splitOn_eq_singleton h.path, List.splitOn_eq_singleton h.text]
  rfl

end SourceFile

namespace Corpus

open SourceFile

theorem utf8_append (s t : String) : utf8 (s ++ t) = utf8 s ++ utf8 t := by
  rw [utf8, String.toUTF8, String.toByteArray_append, ByteArray.toList_data_append]
  rfl

theorem utf8_injective {s t : String} (h : utf8 s = utf8 t) : s = t :=
  String.toByteArray_inj.1 (ByteArray.ext (Array.toList_inj.1 h))

/-- The digested bytes are one text: its characters are those of all frames. -/
theorem digestInput_eq_utf8 (sources : List SourceFile) :
    digestInput sources = utf8 (String.ofList (sources.flatMap frame)) := by
  induction sources with
  | nil => rfl
  | cons source rest ih =>
    have hframe : utf8 (String.ofList source.frame) =
        utf8 source.path ++ 0 :: utf8 source.text ++ [0] := by
      have hzero : utf8 (String.ofList ['\x00']) = [0] := rfl
      rw [frame, ← List.singleton_append, String.ofList_append, String.ofList_append,
        String.ofList_append, String.ofList_toList, String.ofList_toList, utf8_append, utf8_append,
        utf8_append, hzero, List.singleton_append, List.append_assoc, List.cons_append]
    rw [digestInput, List.flatMap_cons, ← digestInput, ih, List.flatMap_cons, String.ofList_append,
      utf8_append, hframe]

/-- Cut at the zeros, the digested text falls into the pieces of the sources. -/
theorem splitOn_flatMap_frame (sources : List SourceFile) :
    (sources.flatMap frame).splitOn '\x00' = sources.flatMap pieces ++ [[]] := by
  induction sources with
  | nil => rfl
  | cons source rest ih =>
    rw [List.flatMap_cons, frame, List.append_assoc, List.cons_append, List.append_assoc,
      List.singleton_append, List.splitOn_append_cons_self, List.splitOn_append_cons_self, ih,
      List.flatMap_cons, pieces, List.append_assoc, List.append_assoc]

theorem flatMap_frame_inj {xs ys : List SourceFile} :
    xs.flatMap frame = ys.flatMap frame ↔ xs.flatMap pieces = ys.flatMap pieces := by
  constructor
  · intro h
    have hsplit := splitOn_flatMap_frame xs
    rw [h, splitOn_flatMap_frame] at hsplit
    exact (List.append_cancel_right hsplit).symm
  · intro h
    have hsplit : (xs.flatMap frame).splitOn '\x00' = (ys.flatMap frame).splitOn '\x00' := by
      rw [splitOn_flatMap_frame, splitOn_flatMap_frame, h]
    have hjoin := congrArg ['\x00'].intercalate hsplit
    rwa [List.intercalate_splitOn, List.intercalate_splitOn] at hjoin

/-- Without zeros the pieces give back each path and each text. -/
theorem eq_of_flatMap_pieces {xs ys : List SourceFile} (hx : ∀ s ∈ xs, s.IsZeroFree)
    (hy : ∀ s ∈ ys, s.IsZeroFree) (h : xs.flatMap pieces = ys.flatMap pieces) : xs = ys := by
  induction xs generalizing ys with
  | nil =>
    cases ys with
    | nil => rfl
    | cons y ys =>
      rw [List.flatMap_cons, pieces_of_isZeroFree (hy y List.mem_cons_self)] at h
      cases h
  | cons x xs ih =>
    rw [List.flatMap_cons, pieces_of_isZeroFree (hx x List.mem_cons_self)] at h
    cases ys with
    | nil => cases h
    | cons y ys =>
      rw [List.flatMap_cons, pieces_of_isZeroFree (hy y List.mem_cons_self)] at h
      obtain ⟨hpath, h⟩ := List.cons.inj h
      obtain ⟨htext, h⟩ := List.cons.inj h
      have hmore : xs = ys := ih (fun s hs => hx s (List.mem_cons_of_mem x hs))
        (fun s hs => hy s (List.mem_cons_of_mem y hs)) h
      obtain ⟨path, text⟩ := x
      obtain ⟨path', text'⟩ := y
      obtain rfl : path = path' := String.toList_inj.1 hpath
      obtain rfl : text = text' := String.toList_inj.1 htext
      rw [hmore]

theorem hexDigit_injective {m n : Nat} (hm : m < 16) (hn : n < 16)
    (h : Sha256.hexDigit m = Sha256.hexDigit n) : m = n := by
  have hall : ∀ i j : Fin 16, Sha256.hexDigit i.val = Sha256.hexDigit j.val → i = j := by decide
  exact congrArg Fin.val (hall ⟨m, hm⟩ ⟨n, hn⟩ h)

/-- Two digits give back their byte. -/
theorem hex_injective {s t : List UInt8} (h : Sha256.hex s = Sha256.hex t) : s = t := by
  induction s generalizing t with
  | nil =>
    cases t with
    | nil => rfl
    | cons b t => cases h
  | cons a s ih =>
    cases t with
    | nil => cases h
    | cons b t =>
      obtain ⟨hhigh, h⟩ := List.cons.inj h
      obtain ⟨hlow, h⟩ := List.cons.inj h
      have hdiv : a.toNat / 16 = b.toNat / 16 := by
        have ha := a.toNat_lt
        have hb := b.toNat_lt
        exact hexDigit_injective (by omega) (by omega) hhigh
      have hmod : a.toNat % 16 = b.toNat % 16 :=
        hexDigit_injective (Nat.mod_lt _ (by decide)) (Nat.mod_lt _ (by decide)) hlow
      have hab : a = b := UInt8.toNat_inj.1 (by omega)
      rw [hab, ih h]

/-- The hexadecimal digits tell as much as the bytes of the hash. -/
theorem digest_inj {xs ys : List SourceFile} :
    digest xs = digest ys ↔ Sha256.digest (digestInput xs) = Sha256.digest (digestInput ys) :=
  ⟨fun h => hex_injective (String.ofList_injective h), fun h => by rw [digest, h, digest]⟩

/-- Two corpora are digested alike just when their paths and texts, cut at the zeros in them, come to
the same pieces. Without zeros that is when they are the same: then one digest of two corpora is a
collision of the hash function. -/
theorem digestInput_inj (xs ys : List SourceFile) :
    (digestInput xs = digestInput ys ↔ xs.flatMap pieces = ys.flatMap pieces) ∧
    ((∀ s ∈ xs ++ ys, s.IsZeroFree) → xs ≠ ys → digestInput xs ≠ digestInput ys ∧
      (digest xs = digest ys → Sha256.digest (digestInput xs) = Sha256.digest (digestInput ys))) := by
  have hpieces : digestInput xs = digestInput ys ↔ xs.flatMap pieces = ys.flatMap pieces := by
    rw [digestInput_eq_utf8, digestInput_eq_utf8, ← flatMap_frame_inj]
    exact ⟨fun h => String.ofList_injective (utf8_injective h), fun h => by rw [h]⟩
  refine ⟨hpieces, fun hz hne => ⟨fun h => hne ?_, digest_inj.1⟩⟩
  exact eq_of_flatMap_pieces (fun s hs => hz s (List.mem_append_left ys hs))
    (fun s hs => hz s (List.mem_append_right xs hs)) (hpieces.1 h)

theorem digestInput_inj_moved :
    digestInput [⟨"a.rs", "fn f() \x7b\x7d"⟩, ⟨"b.rs", ""⟩] ≠
      digestInput [⟨"a.rs", ""⟩, ⟨"b.rs", "fn f() \x7b\x7d"⟩] := by
  have hz : ∀ s ∈ ([⟨"a.rs", "fn f() \x7b\x7d"⟩, ⟨"b.rs", ""⟩] ++
      [⟨"a.rs", ""⟩, ⟨"b.rs", "fn f() \x7b\x7d"⟩] : List SourceFile),
      '\x00' ∉ s.path.toList ∧ '\x00' ∉ s.text.toList := by decide
  exact ((digestInput_inj _ _).2 (fun s hs => ⟨(hz s hs).1, (hz s hs).2⟩) (by decide)).1

/-- A text with zeros in it is digested like two sources. -/
theorem exists_digestInput_eq :
    ∃ xs ys : List SourceFile, xs ≠ ys ∧ digestInput xs = digestInput ys :=
  ⟨[⟨"a.rs", "x\x00b.rs\x00y"⟩], [⟨"a.rs", "x"⟩, ⟨"b.rs", "y"⟩], by decide,
    (digestInput_eq_utf8 _).trans (digestInput_eq_utf8 _).symm⟩

end Corpus

end ApiSurface
