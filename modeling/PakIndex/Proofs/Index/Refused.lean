import PakIndex.Proofs.Archive.Catalogue
import PakIndex.Proofs.Index.Rewritable

/-!
# Flushes that fail

* `Index.unsigned_eq_iff`: when there is no directory signature to lose.
* **`Index.flush_failure`**: a flush that fails leaves the file as it was, and the index too unless
  there are too many entries and the directory is signed.
* `Index.flush_failure_signed`: an archive whose headers are changed by a flush that fails.
-/

namespace PakIndex

namespace Index

variable {i : Index}

theorem unsigned_eq_iff (h : i.headers.Readable) : i.unsigned = i ↔ i.headers.signing = .none := by
  constructor
  · intro heq
    rw [← heq]
    exact (Headers.signature_dropSignature h).1
  · intro hs
    rw [unsigned, Headers.dropSignature_of_unsigned hs]

theorem markDirty_of_writable (h : i.flags.readOnly = false) :
    i.markDirty.2 = { i with flags.dirty := true } := by
  rw [markDirty, h]
  rfl

theorem headers_markDirty (i : Index) : i.markDirty.2.headers = i.headers := by
  unfold markDirty
  split <;> rfl

theorem flush_of_crowded (hro : i.flags.readOnly = false) (hdirty : i.flags.dirty = true)
    (hcount : 0xFFFF < i.tree.entries.length) (content : ByteArray) :
    i.flush content = (.error (.io .tooManyEntries), i.unsigned, content) := by
  rcases flush_cases i content with
    ⟨h, -⟩ | ⟨-, ⟨h, -⟩ | ⟨-, ⟨-, h⟩ | ⟨h, -, -⟩ | ⟨h, -⟩⟩⟩
  · cases h.symm.trans hro
  · cases h.symm.trans hdirty
  · exact h
  · omega
  · omega

end Index

/-! ## Too many entries -/

namespace Catalogue

/-- A comment that declares a directory signature and holds one. -/
def signedComment : Bytes :=
  (ExtendedHeader.mk 0 1).encode ++ (SignatureHeader.mk (List.replicate 256 0)).encode

theorem ofComment_signedComment : ∃ h, Headers.ofComment .none signedComment = .ok h ∧
    h.signing = .directorySigned ∧ h.comment.length = 268 ∧
      h.dropSignature.comment.length = 8 := by
  have hrun : (Headers.ofComment .none signedComment).toOption.map (fun h =>
      (h.signing, h.comment.length, h.dropSignature.comment.length)) =
        some (.directorySigned, 268, 8) := by decide +kernel
  obtain ⟨h, hh, hrun⟩ := Option.map_eq_some_iff.mp hrun
  simp only [Prod.mk.injEq] at hrun
  exact ⟨h, toOption_eq_some_iff.mp hh, hrun⟩

theorem flush_crowd {names : List Bytes} {comment : Bytes} {h : Headers}
    (hv : Valid names comment h) (hcount : 0xFFFF < names.length) (codec : Codec) :
    ∃ i, Index.build { readOnly := false } codec (.ofBytes (archive names comment)) = .ok i ∧
      i.headers = h ∧ ∀ content, i.markDirty.2.flush content =
        (.error (.io .tooManyEntries), i.markDirty.2.unsigned, content) := by
  have hinit : ({ readOnly := false } : Options).init ≠ .validate := by decide
  obtain ⟨i, hi, hheaders, -, hro, hentries, -⟩ := build_listed hv hinit codec
  refine ⟨i, hi, hheaders, fun content => ?_⟩
  rw [Index.markDirty_of_writable hro]
  refine Index.flush_of_crowded (i := { i with flags.dirty := true }) hro rfl ?_ content
  show 0xFFFF < i.tree.entries.length
  rw [hentries]
  exact hcount

end Catalogue

/-! ## Flushes that fail -/

namespace Index

variable {i j : Index} {content content' : ByteArray} {err : Error}

/-- **How a flush fails.** The file stays as it is. So does the index if it may not be written. If
it has more entries than a trailer can count, the directory signature is dropped from its headers
all the same, and nothing else changes. There is no other failure, since the comment of a trailer
never grows. -/
theorem flush_failure (h : Obtained i) (hf : i.flush content = (.error err, j, content')) :
    content' = content ∧
      (err = .readOnly ∧ i.flags.readOnly = true ∧ j = i ∨
        err = .io .tooManyEntries ∧ i.flags.readOnly = false ∧ i.flags.dirty = true ∧
          0xFFFF < i.size ∧ j = { i with headers := i.headers.dropSignature } ∧
          (j = i ↔ i.headers.signing = .none)) := by
  have hsize : i.size = i.tree.entries.length := by
    rw [size, h.laidOut.tree.size_eq, Tree.entries, List.length_map]
  rcases flush_cases i content with
    ⟨hro, hr⟩ | ⟨hro, ⟨-, hr⟩ | ⟨hdirty, ⟨hcount, hr⟩ | ⟨-, hlong, -⟩ | ⟨-, hr⟩⟩⟩
  · cases hr.symm.trans hf
    exact ⟨rfl, .inl ⟨rfl, hro, rfl⟩⟩
  · cases hr.symm.trans hf
  · cases hr.symm.trans hf
    refine ⟨rfl, .inr ⟨rfl, hro, hdirty, by omega, rfl, ?_⟩⟩
    exact unsigned_eq_iff h.rewritable.readable
  · have := h.rewritable.unsigned.commentShort
    omega
  · cases hr.symm.trans hf

/-- An archive of too many files without a directory signature is as it was. -/
theorem flush_failure_unsigned :
    let bytes := Catalogue.archive (Catalogue.numberedNames 65536) []
    ∃ i, Obtained i ∧ i.flags.dirty = true ∧
      i.flush bytes.toByteArray = (.error (.io .tooManyEntries), i, bytes.toByteArray) := by
  intro bytes
  let codec : Codec := fun _ stored _ => .ok stored
  have hv : Catalogue.Valid (Catalogue.numberedNames 65536) [] {} :=
    Catalogue.valid_numberedNames le_rfl rfl (by decide) (by decide)
  obtain ⟨i, hi, hheaders, hf⟩ :=
    Catalogue.flush_crowd hv (by rw [Catalogue.length_numberedNames]; decide) codec
  specialize hf bytes.toByteArray
  have hmarked : Obtained i.markDirty.2 := (Obtained.build hi).use codec (.ofBytes bytes) .markDirty
  obtain ⟨-, ⟨herr, -⟩ | ⟨-, -, hdirty, -, -, hsame⟩⟩ := flush_failure hmarked hf
  · cases herr
  have hsigning : i.markDirty.2.headers.signing = .none := by
    rw [headers_markDirty, hheaders]
  refine ⟨_, hmarked, hdirty, ?_⟩
  rw [hsame.mpr hsigning] at hf
  exact hf

/-- **A flush that fails may change the headers**: the signature of a directory with too many
entries is dropped, although the directory stays as it is. -/
theorem flush_failure_signed :
    let bytes := Catalogue.archive (Catalogue.numberedNames 65536) Catalogue.signedComment
    let codec : Codec := fun _ stored _ => .ok stored
    ∃ i, build { readOnly := false } codec (.ofBytes bytes) = .ok i ∧
      let failed := i.markDirty.2.flush bytes.toByteArray
      failed.1 = .error (.io .tooManyEntries) ∧ failed.2.2 = bytes.toByteArray ∧
        i.markDirty.2.headers.signing = .directorySigned ∧
        failed.2.1.headers.signing = .none ∧
        failed.2.1.headers.comment.length < i.markDirty.2.headers.comment.length := by
  intro bytes codec
  obtain ⟨h, hh, hsigned, hlength, hdropped⟩ := Catalogue.ofComment_signedComment
  have hv : Catalogue.Valid (Catalogue.numberedNames 65536) Catalogue.signedComment h :=
    Catalogue.valid_numberedNames le_rfl hh (by decide +kernel) (by decide +kernel)
  obtain ⟨i, hi, hheaders, hf⟩ :=
    Catalogue.flush_crowd hv (by rw [Catalogue.length_numberedNames]; decide) codec
  have hreadable := (build_rewritable hi).readable
  have hkept : i.markDirty.2.headers = h := (headers_markDirty i).trans hheaders
  rw [hheaders] at hreadable
  refine ⟨i, hi, ?_⟩
  generalize bytes.toByteArray = content
  rw [hf content]
  refine ⟨rfl, rfl, by rw [hkept]; exact hsigned, ?_, ?_⟩
  · rw [unsigned, hkept]
    exact (Headers.signature_dropSignature hreadable).1
  · show i.markDirty.2.headers.dropSignature.comment.length < _
    rw [hkept]
    omega

end Index

end PakIndex
