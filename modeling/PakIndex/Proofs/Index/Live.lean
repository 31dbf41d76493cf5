import PakIndex.Proofs.Index.Reopen

/-!
# Live indexes

* `Stream.Agree`: streams with the same bytes below a position.
* **`Locator.locate_iff_of_agree`**: payloads before the directory are located alike in such
  streams, whatever stands behind it.
* **`Index.Coherent.flushed`**: a flush leaves an index that fits the file it leaves.
* `Index.Live`, **`Index.Live.coherent`**: so does every index that has been opened, used and
  flushed in any order.
-/

namespace PakIndex

/-! ## Streams that agree -/

namespace Stream

variable {n m pos len : Nat} {s s' : Stream}

/-- Whether two streams have at least `n` bytes, of which the first `n` are the same. -/
structure Agree (n : Nat) (s s' : Stream) : Prop where
  le : n ≤ s.size
  le' : n ≤ s'.size
  take : s'.toList.take n = s.toList.take n

namespace Agree

theorem refl (h : n ≤ s.size) : Agree n s s := ⟨h, h, rfl⟩

theorem symm (h : Agree n s s') : Agree n s' s := ⟨h.le', h.le, h.take.symm⟩

theorem field (h : Agree n s s') (hend : pos + len ≤ n) :
    s'.toList.field pos len = s.toList.field pos len :=
  Bytes.field_of_take h.take hend

theorem read (h : Agree n s s') (hend : pos + len ≤ n) : s'.read pos len = s.read pos len := by
  rw [read_of_le (hend.trans h.le), read_of_le (hend.trans h.le'), h.field hend]

theorem getElem? (h : Agree n s s') {k : Nat} (hk : k < n) : s'.toList[k]? = s.toList[k]? := by
  rw [← List.getElem?_take_of_lt hk, h.take, List.getElem?_take_of_lt hk]

end Agree

end Stream

/-! ## Locating payloads in streams that agree -/

namespace Locator

variable {l : Locator} {s s' : Stream} {e : Entry} {name : Bytes} {d : UInt32}

/-- A payload that starts before the directory has its local header there, so that nothing behind
the directory decides its place. -/
theorem locate_of_agree (h : s.Agree l.directoryOffset.toNat s')
    (hd : l.locate s e name = .ok d) : l.locate s' e name = .ok d := by
  obtain ⟨hbefore, hend, -⟩ := locate_within hd
  by_cases henc : l.encryption.isEncrypted = true
  · rw [locate_of_isEncrypted henc s' s]
    exact hd
  · have hread : s'.read e.headerOffset.toNat (LocalHeader.fixedSize + name.length) = _ :=
      h.read (by change _ + (30 + _) ≤ _; omega)
    rw [← hd, locate, locate, expectedOffset, expectedOffset, if_neg henc, if_neg henc, hread]

/-- **Payloads are located alike** in streams that agree below the directory. -/
theorem locate_iff_of_agree (h : s.Agree l.directoryOffset.toNat s') :
    l.locate s' e name = .ok d ↔ l.locate s e name = .ok d := by
  refine ⟨fun hd => locate_of_agree ?_ hd, locate_of_agree h⟩
  exact h.symm

end Locator

namespace Entry.Sound

variable {l : Locator} {s s' : Stream} {names : NamePool} {e : Entry}

theorem agree (h : e.Sound l s names) (hs : s.Agree l.directoryOffset.toNat s') :
    e.Sound l s' names :=
  { h with located := fun d hd => Locator.locate_of_agree hs (h.located d hd) }

end Entry.Sound

namespace Index

variable {i j : Index} {s s' : Stream} {codec : Codec} {content content' : ByteArray}

/-! ## Flushing -/

theorem Flushed.agree (hf : Flushed content content' i j) :
    (Stream.ofByteArray content).Agree i.directoryOffset.toNat (.ofByteArray content') := by
  have hlen := hf.before
  have htake : (Stream.ofByteArray content').toList.take i.directoryOffset.toNat =
      (Stream.ofByteArray content).toList.take i.directoryOffset.toNat := by
    rw [Stream.toList_ofByteArray, Stream.toList_ofByteArray, hf.bytes]
    exact List.take_left' hlen
  refine ⟨?_, ?_, htake⟩ <;> rw [← Stream.length_toList]
  · rw [List.length_take] at hlen
    rw [Stream.toList_ofByteArray]
    omega
  · have hlen' := congrArg List.length htake
    rw [Stream.toList_ofByteArray content, hlen, List.length_take] at hlen'
    omega

/-- **A flush that writes leaves an index that fits the file it leaves.** -/
theorem Coherent.flushed (h : i.Coherent (.ofByteArray content))
    (hf : Flushed content content' i j) : j.Coherent (.ofByteArray content') := by
  have hu := h.unsigned
  have hsize := hf.size_eq
  have hrecords := hf.toNat_directorySize h
  -- The rewritten directory is no larger than the one that it replaces.
  have hle : i.recordsSize ≤ i.directorySize.toNat := h.records
  have hsmall : i.directoryOffset.toNat + i.directorySize.toNat + 22 +
    i.unsigned.headers.comment.length ≤ maxArchiveSize := hu.small
  rw [hf.index] at hrecords ⊢
  refine ⟨h.tree, fun p e he => ?_, h.slots, hu.readable, hu.commentShort, hrecords.ge, ?_, ?_⟩
  · have hsound : e.Sound i.unsigned.locator _ _ := hu.entries p e he
    show e.Sound i.unsigned.locator _ _
    rw [locator_unsigned] at hsound ⊢
    exact hsound.agree hf.agree
  · rw [hrecords, Stream.size_ofByteArray]
    show i.directoryOffset.toNat + _ ≤ _
    omega
  · rw [hrecords]
    show i.directoryOffset.toNat + _ + 22 + i.unsigned.headers.comment.length ≤ _
    omega

/-- **However a flush ends, the index that it leaves fits the file that it leaves**, and the bytes
before the directory are as before. -/
theorem Coherent.flush_agree (h : i.Coherent (.ofByteArray content)) :
    (i.flush content).2.1.Coherent (.ofByteArray (i.flush content).2.2) ∧
      (Stream.ofByteArray content).Agree i.directoryOffset.toNat
        (.ofByteArray (i.flush content).2.2) := by
  have hsame := Stream.Agree.refl h.directoryOffset_le
  rcases flush_cases i content with
    ⟨-, hf⟩ | ⟨-, ⟨-, hf⟩ | ⟨hdirty, ⟨-, hf⟩ | ⟨-, -, hf⟩ | ⟨-, hf⟩⟩⟩
  · rw [hf]
    exact ⟨h, hsame⟩
  · rw [hf]
    exact ⟨h, hsame⟩
  · rw [hf]
    exact ⟨h.unsigned, hsame⟩
  · rw [hf]
    exact ⟨h.unsigned, hsame⟩
  · have hwritten := h.flush hdirty hf
    rw [hf]
    exact ⟨h.flushed hwritten, hwritten.agree⟩

/-! ## Every reachable index -/

/-- Whether an index is live over a file: the file was opened, and the index was used and flushed in
any order since then. -/
inductive Live (codec : Codec) : Index → ByteArray → Prop
  | opened {options : Options} {path : String} {place : Place} {i : Index} {content : ByteArray} :
    place.open options codec path = (.ok i, .file content) → Live codec i content
  | use {i : Index} {content : ByteArray} (u : Use) :
    Live codec i content → Live codec (use codec (.ofByteArray content) i u) content
  | flush {i : Index} {content : ByteArray} :
    Live codec i content → Live codec (i.flush content).2.1 (i.flush content).2.2

/-- **Every live index fits its file.** -/
theorem Live.coherent (h : Live codec i content) : i.Coherent (.ofByteArray content) := by
  induction h with
  | opened h => exact open_coherent h
  | use u _ ih => exact ih.use codec u
  | flush _ ih => exact ih.flush_agree.1

end Index

end PakIndex
