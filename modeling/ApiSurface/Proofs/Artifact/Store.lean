import ApiSurface.Artifact.Store
import ApiSurface.Proofs.Artifact.RecordCodec
import ApiSurface.Proofs.FileTree.Write
import Mathlib.Data.String.Basic

namespace ApiSurface

open Json

namespace FileTree

variable {tree saved : FileTree} {path stamp : String} {here : List String} {α : Type}
  {decode : Decoder α} {encode : α → Value} {a : α}

theorem text?_ofText (text : String) : (FileData.ofText text).text? = some text := by
  have hvalid : text.toUTF8.IsValidUTF8 := text.isValidUTF8
  rw [FileData.ofText, FileData.text?, String.fromUTF8?, dif_pos hvalid]
  rfl

/-- What any artifact that decoding gives back is loaded as, once it is written. -/
theorem loadArtifact_writeAtomic (h : decode.Undoes encode a) (hw : (encode a).IsWritten)
    (hs : (encode a).render.utf8ByteSize ≤ artifactLimit) (hd : (encode a).depth ≤ depthLimit)
    (hsave : tree.writeAtomic path (encode a).render stamp here = (saved, .ok ())) :
    saved.loadArtifact decode path here = .ok a := by
  have hread : atPath path (saved.read path here) = .ok (.ofText (encode a).render) := by
    rw [read_writeAtomic hsave]
    rfl
  have hsize : ¬ (FileData.ofText (encode a).render).size > artifactLimit := Nat.not_lt.2 hs
  have hdata : decodeData decode path (.ofText (encode a).render) = .ok a := by
    have htext := decodeText_render h hw hd
    unfold decodeData
    split
    · rename_i hzeros
      cases hzeros
    · rw [text?_ofText]
      simp only [htext]
  refine bind_eq_ok_iff.2 ⟨_, hread, ?_⟩
  rw [if_neg hsize]
  exact hdata

/-- Both artifacts come back as they were saved. -/
theorem load_save (tree saved : FileTree) (path stamp : String) (here : List String) :
    (∀ a : RecordsArtifact, a.HasWordLines → a.encode.render.utf8ByteSize ≤ artifactLimit →
      a.encode.depth ≤ depthLimit → tree.saveRecords path a stamp here = (saved, .ok ()) →
        saved.loadRecords path here = .ok a) ∧
    ∀ a : DocArtifact, a.HasWordLines → a.encode.render.utf8ByteSize ≤ artifactLimit →
      a.encode.depth ≤ depthLimit → tree.saveDocFindings path a stamp here = (saved, .ok ()) →
        saved.loadDocFindings path here = .ok a := by
  constructor
  · intro a hl hs hd hsave
    exact loadArtifact_writeAtomic (RecordsArtifact.decode_undoes hl)
      (RecordsArtifact.isWritten_encode hl) hs hd hsave
  · intro a hl hs hd hsave
    exact loadArtifact_writeAtomic (DocArtifact.decode_undoes hl) (DocArtifact.isWritten_encode hl)
      hs hd hsave

theorem load_save_put :
    (∃ saved, (dir [("w", dir [])]).saveRecords "../out/a.json" ⟨"0a", [⟨⟨"put", "private", [], [],
        [.typed "key" (.array (.tuple []) "\x01\t")], none⟩, [" \\ é"], "\"\n", some "S", "a.rs", 7⟩]⟩
        "1" ["w"] = (saved, .ok ()) ∧
      saved.loadRecords "../out/a.json" ["w"] = .ok ⟨"0a", [⟨⟨"put", "private", [], [],
        [.typed "key" (.array (.tuple []) "\x01\t")], none⟩, [" \\ é"], "\"\n", some "S", "a.rs", 7⟩]⟩) ∧
    ∃ saved, (dir []).saveDocFindings "/a.json" ⟨"0a", "T",
        .ofList [("T::put", [.missingExampleCode, .missingArgumentDoc "key"])],
        [⟨"a.rs", 9, "MalformedSignature", "m", none⟩]⟩ "1" [] = (saved, .ok ()) ∧
      saved.loadDocFindings "/a.json" [] = .ok ⟨"0a", "T",
        .ofList [("T::put", [.missingExampleCode, .missingArgumentDoc "key"])],
        [⟨"a.rs", 9, "MalformedSignature", "m", none⟩]⟩ := by
  have hlines : ∀ line ∈ [7, 9], line < 2 ^ 64 := by decide
  refine ⟨⟨_, rfl, (load_save (dir [("w", dir [])]) _ "../out/a.json" "1" ["w"]).1 _ ?_ ?_ ?_ rfl⟩,
    ⟨_, rfl, (load_save (dir []) _ "/a.json" "1" []).2 _ ?_ ?_ ?_ rfl⟩⟩
  · exact List.forall_mem_singleton.2 (hlines 7 (.head _))
  · rw [Value.render, String.utf8ByteSize_ofList]
    decide +kernel
  · decide +kernel
  · exact List.forall_mem_singleton.2 (hlines 9 (.tail _ (.head _)))
  · rw [Value.render, String.utf8ByteSize_ofList]
    decide +kernel
  · decide +kernel

end FileTree

end ApiSurface
