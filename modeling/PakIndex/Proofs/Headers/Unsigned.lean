import PakIndex.Proofs.Headers
import PakIndex.Proofs.Layout.Extension

/-!
# Headers without the signature of the directory

* `Headers.WithoutSignature`: what becomes of the fields and of the comment.
* `Headers.withoutSignature_dropSignature`: this is what dropping the signature does;
  `Headers.dropSignature_dropSignature`: to do it again changes nothing.
* `Headers.CarriedOver`: what is left of the headers of an archive that is rewritten.
* **`Headers.decode_dropSignature`**: the headers without the signature are the ones that are read
  behind a trailer with the comment that is left.
-/

namespace PakIndex

open Bytes

/-- The trailer of the same directory with another comment, and with nothing in its disk field. -/
def Trailer.withComment (t : Trailer) (comment : Bytes) : Trailer :=
  { t with disk := 0, commentLength := .ofNat comment.length }

namespace Headers

variable {s : Stream} {l : LocatedTrailer} {h : Headers}

/-- Whether `h'` is `h` without the signature of the directory: encryption stays as it is, the
extended header declares no signing, and the comment loses the 260 bytes of the signature header and
has zero in place of the signing technique. -/
structure WithoutSignature (h h' : Headers) : Prop where
  signing : h'.signing = .none
  signature : h'.signature = none
  encryption : h'.encryption = h.encryption
  encryptionHeader : h'.encryptionHeader = h.encryptionHeader
  extended : h'.extended = h.extended.map fun x => { x with signing := 0 }
  comment : h'.comment = h.comment.take 6 ++ [0, 0] ++ h.comment.drop 268
  length_comment : h'.comment.length + 260 = h.comment.length

theorem readable_of_decode (hd : decode s l = .ok h) : h.Readable := by
  obtain ⟨comment, -, hh, -⟩ := decode_eq_ok_iff_read.mp hd
  refine ⟨.ofDisk l.record.disk, Encryption.ofDisk_ne _, ?_⟩
  rw [comment_of_ofComment hh]
  exact hh

theorem length_comment_of_decode (hd : decode s l = .ok h) :
    h.comment.length = l.record.commentLength.toNat := by
  obtain ⟨comment, hread, hh, -⟩ := decode_eq_ok_iff_read.mp hd
  obtain ⟨hroom, rfl⟩ := Stream.read_eq_ok_iff.mp hread
  rw [comment_of_ofComment hh, List.length_take, List.length_drop, Stream.length_toList]
  omega

theorem encode_unsigned {x : ExtendedHeader} {comment : Bytes}
    (hx : ExtendedHeader.parse comment = .ok x) :
    ExtendedHeader.encode { x with signing := 0 } = comment.take 6 ++ [0, 0] := by
  have hencode := ExtendedHeader.encode_of_parse hx
  have hzero : le16 0 = [0, 0] := by decide
  have hsix : (ExtensionPart.extended.sizeField ++ le16 x.encryption).length = 6 := by
    rw [List.length_append, length_le16]
    rfl
  calc ExtendedHeader.encode { x with signing := 0 }
    _ = (ExtensionPart.extended.sizeField ++ le16 x.encryption) ++ [0, 0] := by
      rw [ExtendedHeader.encode, hzero]
    _ = x.encode.take 6 ++ [0, 0] := by rw [ExtendedHeader.encode, List.take_left' hsix]
    _ = comment.take 6 ++ [0, 0] := by
      rw [hencode, Bytes.field, List.drop_zero, List.take_take]
      rfl

/-- **What dropping the signature does** to headers that a comment holds. -/
theorem withoutSignature_dropSignature (hr : h.Readable) (hs : h.signing = .directorySigned) :
    h.WithoutSignature h.dropSignature := by
  obtain ⟨x, hx, hextended, hlength⟩ := hr.extended_of_signed hs
  rw [dropSignature_of_signed hs hextended]
  refine ⟨rfl, rfl, rfl, rfl, by rw [hextended]; rfl, by rw [encode_unsigned hx], ?_⟩
  rw [List.length_append, ExtendedHeader.length_encode, List.length_drop]
  omega

/-- What the headers `h` of an archive leave to the headers `h'` that it has once it is rewritten:
encryption and its header, with no signature. Headers without a signature stay as they are, and of
the others nothing is lost but the signature. -/
structure CarriedOver (h h' : Headers) : Prop where
  encryption : h'.encryption = h.encryption
  encryptionHeader : h'.encryptionHeader = h.encryptionHeader
  signing : h'.signing = .none
  signature : h'.signature = none
  unsigned : h.signing = .none → h' = h
  signed : h.signing = .directorySigned → h.WithoutSignature h'

theorem carriedOver_dropSignature (hr : h.Readable) : h.CarriedOver h.dropSignature where
  encryption := encryption_dropSignature h
  encryptionHeader := encryptionHeader_dropSignature h
  signing := (signature_dropSignature hr).1
  signature := (signature_dropSignature hr).2
  unsigned := dropSignature_of_unsigned
  signed := withoutSignature_dropSignature hr

theorem dropSignature_dropSignature (hr : h.Readable) :
    h.dropSignature.dropSignature = h.dropSignature :=
  dropSignature_of_unsigned (signature_dropSignature hr).1

/-- **To drop the signature is what the decoder does.** Headers without a signature stay as they
are. Those with one become what is read behind a trailer at the same place that has nothing in its
disk field and the comment that is left: there is no signature any more, encryption is as it was,
and the comment has lost the signature header and nothing else but the signing technique. To do it
again changes nothing. -/
theorem decode_dropSignature (hd : decode s l = .ok h) :
    (h.signing = .none → h.dropSignature = h) ∧
    (h.signing = .directorySigned →
      let t := l.record.withComment h.dropSignature.comment
      h.WithoutSignature h.dropSignature ∧
        t.commentLength.toNat = h.dropSignature.comment.length ∧
        ∀ s', s'.toList.drop l.offset = t.encode ++ h.dropSignature.comment →
          decode s' ⟨t, l.offset, s'.size⟩ = .ok h.dropSignature) ∧
    h.dropSignature.dropSignature = h.dropSignature := by
  have hr := readable_of_decode hd
  refine ⟨dropSignature_of_unsigned, fun hs => ?_, dropSignature_dropSignature hr⟩
  intro t
  have hwithout := withoutSignature_dropSignature hr hs
  have hlength : t.commentLength.toNat = h.dropSignature.comment.length := by
    have hold := length_comment_of_decode hd
    have hnew := hwithout.length_comment
    have hlt := l.record.commentLength.toNat_lt
    show (UInt16.ofNat h.dropSignature.comment.length).toNat = _
    rw [UInt16.toNat_ofNat']
    omega
  refine ⟨hwithout, hlength, fun s' hs' => ?_⟩
  obtain ⟨-, -, -, ⟨-, hstart, hentries⟩, hend⟩ := decode_eq_ok_iff_read.mp hd
  have hdisk : h.dropSignature.diskEncryption = .none := by
    obtain ⟨x, -, hx, -⟩ := hr.extended_of_signed hs
    rw [diskEncryption, hwithout.extended, hx]
    rfl
  have hread := (ofComment_dropSignature hr).1
  rw [hdisk, ← (by decide : Encryption.ofDisk 0 = .none)] at hread
  have hnumber : diskNumber 0 = 0 := by decide
  exact (decode_behind_iff hs' hlength).mpr ⟨hread, ⟨hnumber, hstart, hentries⟩, hend⟩

/-- An archive without files that is signed and encrypted by a table of keys, with bits in its disk
field that declare no technique. -/
theorem decode_dropSignature_encrypted :
    let signature : SignatureHeader := ⟨List.replicate 256 0x5A⟩
    let key : EncryptionHeader := ⟨List.replicate 16 0x11, List.replicate 16 (List.replicate 16 7)⟩
    let comment := (ExtendedHeader.mk 3 1).encode ++ (signature.encode ++ key.encode)
    let t : Trailer := ⟨0xC000, 0, 0, 0, 0, 0, 544⟩
    let s := Stream.ofBytes (t.encode ++ comment)
    ∃ h, decode s ⟨t, 0, s.size⟩ = .ok h ∧ h.encryption = .streamCipherKeyTable ∧
      h.WithoutSignature h.dropSignature ∧
      let t' := t.withComment h.dropSignature.comment
      let s' := Stream.ofBytes (t'.encode ++ h.dropSignature.comment)
      decode s' ⟨t', 0, s'.size⟩ = .ok h.dropSignature := by
  intro signature key comment t s
  have hlength : t.commentLength.toNat = comment.length := by decide +kernel
  have hcomment : ((ofComment (.ofDisk t.disk) comment).toOption.map fun h =>
      (h.encryption, h.signing)) = some (.streamCipherKeyTable, .directorySigned) := by
    decide +kernel
  obtain ⟨h, hh, htechniques⟩ := Option.map_eq_some_iff.mp hcomment
  obtain ⟨hencryption, hsigning⟩ := Prod.mk.inj htechniques
  have hd : decode s ⟨t, 0, s.size⟩ = .ok h := by
    refine (decode_behind_iff ?_ hlength).mpr ⟨toOption_eq_some_iff.mp hh, by decide, by decide⟩
    rw [Stream.toList_ofBytes, List.drop_zero]
  obtain ⟨-, hsigned, -⟩ := decode_dropSignature hd
  obtain ⟨hwithout, -, hread⟩ := hsigned hsigning
  refine ⟨h, hd, hencryption, hwithout, hread _ ?_⟩
  rw [Stream.toList_ofBytes, List.drop_zero]

end Headers

end PakIndex
