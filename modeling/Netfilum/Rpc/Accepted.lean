import Netfilum.Lib.Decoding
import Netfilum.Rpc.Frame

namespace Netfilum

open Crypto Postcard Program Rust

/-!
# The messages that are accepted

What `read_message` makes of bytes that anybody may have sent: the message is one that
`write_message` can send, in no more bytes.

* `Request.frugal`, `RpcResult.frugal` — the formats of the messages write no more than they
  read.
* `readMessage_local` — a message is read from the front of the stream.
* `accepted_rewritable` — it fits in a frame, and is read back from it.
-/

/-! ### The formats -/

/-- The kind of an entry is written as short as it is read. -/
theorem EntryKind.frugal : EntryKind.codec.Frugal :=
  Codec.frugal_enum fun _ => .ite (fun hi => .pure ⟨hi.symm, Nat.le_refl 0⟩)
    fun _ => .ite (fun hi => .pure ⟨hi.symm, Nat.le_refl 0⟩) fun _ => .throw _

/-- A time is written as short as it is read. -/
theorem FileTimeValue.frugal : FileTimeValue.codec.Frugal :=
  (Codec.frugal_i64.prod Codec.frugal_u32).map (fun _ => rfl) fun _ => Nat.le_refl _

/-- The attributes of a file are written as short as they are read. -/
theorem FileAttr.frugal : FileAttr.codec.Frugal := by
  have htime := FileTimeValue.frugal.option
  exact (EntryKind.frugal.prod <| Codec.frugal_u64.prod <| Codec.frugal_u64.prod <| htime.prod <|
    htime.prod <| htime.prod <| htime.prod <| Codec.frugal_bool.prod Codec.frugal_u32.option).map
      (fun _ => rfl) fun _ => Nat.le_refl _

/-- An entry of a directory is written as short as it is read. -/
theorem DirEntry.frugal : DirEntry.codec.Frugal :=
  (Codec.frugal_string.prod FileAttr.frugal).map (fun _ => rfl) fun _ => Nat.le_refl _

/-- A change of times and attributes is written as short as it is read. -/
theorem BasicInfoUpdate.frugal : BasicInfoUpdate.codec.Frugal := by
  have htime := FileTimeValue.frugal.option
  exact (Codec.frugal_bool.option.prod <| htime.prod <| htime.prod <| htime.prod htime).map
    (fun _ => rfl) fun _ => Nat.le_refl _

/-- What is told about the volume is written as short as it is read. -/
theorem VolumeInfoData.frugal : VolumeInfoData.codec.Frugal :=
  (Codec.frugal_u64.prod <| Codec.frugal_u64.prod Codec.frugal_string).map (fun _ => rfl)
    fun _ => Nat.le_refl _

/-- One variant of an enumeration, and the others. -/
theorem frugal_variant {α β : Type} {c : Codec α} (hc : c.Frugal) {f : α → β}
    {index : β → UInt32} {fields : β → List UInt8} {i k : UInt32} {other : Decoder β}
    (hindex : ∀ a, index (f a) = k) (hfields : ∀ a, fields (f a) = c.put a)
    (hother : Reads (fun b used => index b = i ∧ (fields b).length ≤ used.length) other) :
    Reads (fun b used => index b = i ∧ (fields b).length ≤ used.length)
      (if i = k then f <$> c.take else other) :=
  .ite (fun hi => hc.variant (fun a => (hindex a).trans hi.symm) hfields) fun _ => hother

/-- A request is written as short as it is read. -/
theorem Request.frugal : Request.codec.Frugal := by
  have hpath := Codec.frugal_string
  have hflag := Codec.frugal_bool
  have hsize := Codec.frugal_u64
  refine Codec.frugal_enum fun i => ?_
  refine frugal_variant hpath (fun _ => rfl) (fun _ => rfl) ?_
  refine frugal_variant hpath (fun _ => rfl) (fun _ => rfl) ?_
  refine frugal_variant (hpath.prod <| EntryKind.frugal.prod <| Codec.frugal_u32.prod hsize)
    (fun _ => rfl) (fun _ => rfl) ?_
  refine frugal_variant hpath (fun _ => rfl) (fun _ => rfl) ?_
  refine frugal_variant (hpath.prod <| hsize.prod Codec.frugal_u32) (fun _ => rfl)
    (fun _ => rfl) ?_
  refine frugal_variant (hpath.prod <| hsize.prod <| Codec.frugal_byte.seq.prod hflag)
    (fun _ => rfl) (fun _ => rfl) ?_
  refine frugal_variant (hpath.prod EntryKind.frugal) (fun _ => rfl) (fun _ => rfl) ?_
  refine frugal_variant hpath (fun _ => rfl) (fun _ => rfl) ?_
  refine frugal_variant hpath (fun _ => rfl) (fun _ => rfl) ?_
  refine frugal_variant (hpath.prod <| hpath.prod hflag) (fun _ => rfl) (fun _ => rfl) ?_
  refine frugal_variant (hpath.prod <| hsize.prod hflag) (fun _ => rfl) (fun _ => rfl) ?_
  refine frugal_variant hpath.option (fun _ => rfl) (fun _ => rfl) ?_
  refine frugal_variant (hpath.prod BasicInfoUpdate.frugal) (fun _ => rfl) (fun _ => rfl) ?_
  exact .ite (fun hi => .pure ⟨hi.symm, Nat.le_refl 0⟩) fun _ => .throw _

/-- A response is written as short as it is read. -/
theorem Response.frugal : Response.codec.Frugal := by
  refine Codec.frugal_enum fun i => ?_
  refine frugal_variant FileAttr.frugal (fun _ => rfl) (fun _ => rfl) ?_
  refine frugal_variant DirEntry.frugal.seq (fun _ => rfl) (fun _ => rfl) ?_
  refine frugal_variant Codec.frugal_byte.seq (fun _ => rfl) (fun _ => rfl) ?_
  refine frugal_variant (Codec.frugal_u32.prod FileAttr.frugal) (fun _ => rfl) (fun _ => rfl) ?_
  refine frugal_variant VolumeInfoData.frugal (fun _ => rfl) (fun _ => rfl) ?_
  exact .ite (fun hi => .pure ⟨hi.symm, Nat.le_refl 0⟩) fun _ => .throw _

/-- The code of an error is written as short as it is read. -/
theorem ErrorCode.frugal : ErrorCode.codec.Frugal := by
  refine Codec.frugal_enum fun i => ?_
  iterate 9 refine .ite (fun hi => .pure ⟨hi.symm, Nat.le_refl 0⟩) fun _ => ?_
  exact .throw _

/-- An error is written as short as it is read. -/
theorem RpcError.frugal : RpcError.codec.Frugal :=
  (ErrorCode.frugal.prod Codec.frugal_string).map (fun _ => rfl) fun _ => Nat.le_refl _

/-- A result is written as short as it is read. -/
theorem RpcResult.frugal : RpcResult.codec.Frugal := Response.frugal.result RpcError.frugal

/-! ### Frames -/

section

variable {α : Type} {cipher : RpcCipher} {codec : Codec α} {stream rest : List UInt8} {value : α}

/-- A plaintext is 28 bytes shorter than the payload it was in. -/
theorem RpcCipher.length_decrypt (hideal : cipher.aead.Ideal) {payload plaintext : List UInt8}
    (h : cipher.decrypt payload = .ok plaintext) : payload.length = plaintext.length + 28 := by
  unfold decrypt at h
  by_cases hshort : payload.length < nonceLen
  · rw [dif_pos hshort] at h
    cases h
  · rw [dif_neg hshort] at h
    dsimp only at h
    split at h
    · next text htext =>
      cases h
      have hlen := cipher.aead.length_encrypt (hideal _ _ _ _ htext)
      unfold nonceLen at hshort hlen
      rw [List.length_drop] at hlen
      omega
    · cases h

/-- A message is read from the front of the stream, whatever follows it; what it is read from
    is at least as long as its frame. -/
theorem readMessage_local (hfrugal : codec.Frugal) (hideal : cipher.aead.Ideal)
    (h : readMessage cipher codec stream = .ok value rest) :
    ∃ used, stream = used ++ rest ∧ (codec.put value).length + 32 ≤ used.length ∧
      used.length < 2 ^ 32 + 4 ∧
      ∀ more, readMessage cipher codec (used ++ more) = .ok value more := by
  obtain ⟨payload, plaintext, hlen, hdec, hvalue, rfl⟩ := (readMessage_eq_ok cipher codec).mp h
  refine ⟨toLeBytes (UInt32.ofNat payload.length) ++ payload, rfl, ?_, ?_, fun more =>
    (readMessage_eq_ok cipher codec).mpr ⟨payload, plaintext, hlen, hdec, hvalue, rfl⟩⟩
  · obtain ⟨left, htake⟩ := fromBytes_eq_ok.mp hvalue
    obtain ⟨used, rfl, hput, -⟩ := hfrugal plaintext value left htake
    have hpayload := cipher.length_decrypt hideal hdec
    rw [List.length_append] at hpayload
    rw [List.length_append, length_toLeBytes]
    omega
  · rw [List.length_append, length_toLeBytes]
    omega

/-- A frame has four bytes of length, twelve of nonce and sixteen of tag. -/
theorem length_frame {nonce : Nonce} {bytes : List UInt8}
    (h : frame cipher codec nonce value = .ok bytes) :
    bytes.length = (codec.put value).length + 32 := by
  obtain ⟨payload, henc, -, rfl⟩ := frame_eq_ok cipher codec h
  have hlen := cipher.length_encrypt henc
  rw [List.length_append, length_toLeBytes]
  omega

/-- A message that is accepted can be written, and read back. -/
theorem readMessage_rewritable (hfrugal : codec.Frugal) (hideal : cipher.aead.Ideal)
    (h : readMessage cipher codec stream = .ok value rest) :
    (codec.put value).length + 28 < 2 ^ 32 ∧ ∃ used, stream = used ++ rest ∧
      (∀ more, readMessage cipher codec (used ++ more) = .ok value more) ∧
      ∀ nonce, ∃ bytes, writeMessage cipher codec nonce value [] = .ok () bytes ∧
        bytes.length ≤ used.length ∧
        ∀ more, readMessage cipher codec (bytes ++ more) = .ok value more := by
  obtain ⟨used, rfl, hput, hlen, hmore⟩ := readMessage_local hfrugal hideal h
  have hfits : (codec.put value).length + 28 < 2 ^ 32 := by omega
  refine ⟨hfits, used, rfl, hmore, fun nonce => ?_⟩
  obtain ⟨bytes, hframe⟩ := (frame_ok_iff cipher codec nonce value).mpr hfits
  refine ⟨bytes, ?_, ?_, readMessage_frame cipher codec hframe⟩
  · rw [writeMessage_apply, hframe]
    rfl
  · rw [length_frame hframe]
    exact hput

end

/-- **What is accepted can be sent.**  Whatever bytes arrive, a message that is accepted is read
    from the front of the stream, whatever follows it, and fits in a frame; it can be written
    in no more bytes than it was read from, and is read back from these. -/
theorem accepted_rewritable (cipher : RpcCipher) (hideal : cipher.aead.Ideal)
    (type : MessageType) (stream rest : List UInt8) (m : Message)
    (h : Message.read cipher type stream = .ok m rest) :
    m.Fits ∧ ∃ used, stream = used ++ rest ∧
      (∀ more, Message.read cipher type (used ++ more) = .ok m more) ∧
      ∀ nonce, ∃ bytes, m.write cipher nonce [] = .ok () bytes ∧ bytes.length ≤ used.length ∧
        ∀ more, Message.read cipher type (bytes ++ more) = .ok m more := by
  cases type with
  | request =>
    obtain ⟨r, hread, rfl⟩ := map_eq_ok.mp h
    obtain ⟨hfits, used, rfl, hmore, hwrite⟩ := readMessage_rewritable Request.frugal hideal hread
    refine ⟨hfits, used, rfl, fun more => map_eq_ok.mpr ⟨r, hmore more, rfl⟩, fun nonce => ?_⟩
    obtain ⟨bytes, hok, hlen, hback⟩ := hwrite nonce
    exact ⟨bytes, hok, hlen, fun more => map_eq_ok.mpr ⟨r, hback more, rfl⟩⟩
  | result =>
    obtain ⟨r, hread, rfl⟩ := map_eq_ok.mp h
    obtain ⟨hfits, used, rfl, hmore, hwrite⟩ :=
      readMessage_rewritable RpcResult.frugal hideal hread
    refine ⟨hfits, used, rfl, fun more => map_eq_ok.mpr ⟨r, hmore more, rfl⟩, fun nonce => ?_⟩
    obtain ⟨bytes, hok, hlen, hback⟩ := hwrite nonce
    exact ⟨bytes, hok, hlen, fun more => map_eq_ok.mpr ⟨r, hback more, rfl⟩⟩

/-- What AES-256-GCM makes of `Stat "a"` under a key and a nonce of zeros when the index of the
    variant takes two bytes, as nobody writes it. -/
def overlongCipher : RpcCipher where
  aead := .recorded [⟨nonceEnding 0, [128, 0, 1, 97],
    [78, 167, 65, 92, 253, 167, 236, 139, 142, 17, 224, 106, 127, 10, 92, 156, 3, 55, 68, 3], rfl⟩]
  key := zeroKey

/-- The frame of it. -/
def overlongFrame : List UInt8 :=
  [32, 0, 0, 0, 0, 0, 0, 0, 0, 0, 0, 0, 0, 0, 0, 0, 78, 167, 65, 92, 253, 167, 236, 139, 142,
    17, 224, 106, 127, 10, 92, 156, 3, 55, 68, 3]

/-- It is read as `Stat "a"`. -/
theorem read_overlongFrame :
    readMessage overlongCipher Request.codec overlongFrame = .ok (.stat "a") [] := by
  refine (readMessage_eq_ok overlongCipher Request.codec).mpr
    ⟨overlongFrame.drop 4, [128, 0, 1, 97], by decide, rfl, ?_, rfl⟩
  rfl

/-- It is accepted, and is written in one byte less. -/
theorem accepted_rewritable_overlong : (Message.request (.stat "a")).Fits ∧
    ∃ used, overlongFrame = used ++ [] ∧
      (∀ more, Message.read overlongCipher .request (used ++ more)
        = .ok (.request (.stat "a")) more) ∧
      ∀ nonce, ∃ bytes,
        (Message.request (.stat "a")).write overlongCipher nonce [] = .ok () bytes ∧
        bytes.length ≤ used.length ∧
        ∀ more, Message.read overlongCipher .request (bytes ++ more)
          = .ok (.request (.stat "a")) more :=
  accepted_rewritable overlongCipher (Aead.ideal_recorded _) .request overlongFrame []
    (.request (.stat "a")) (map_eq_ok.mpr ⟨_, read_overlongFrame, rfl⟩)

end Netfilum
