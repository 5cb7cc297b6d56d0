import Netfilum.Lib.Aead
import Netfilum.Lib.Program
import Netfilum.Rpc.Format

namespace Netfilum

open Crypto Postcard Program Rust

/-!
# Frames

`RpcCipher`, `write_message` and `read_message` of `src/rpc.rs`: a message is encoded,
encrypted under a fresh nonce, and sent behind its length in four bytes.

* `writeMessage_apply` — writing either appends one whole `frame` or fails and writes
  nothing.
* `readMessage_frame` — reading takes exactly the frame and returns the message.
* `readMessage_short` — a frame cut anywhere is an error.
* `wire_roundtrip` — whole conversations, in order, whatever follows them.
-/

/-- `CONNECTION_DATA`. -/
def connectionData : UInt8 := 0x00

/-- `CONNECTION_MONITOR`. -/
def connectionMonitor : UInt8 := 0x01

/-- `NONCE_LEN`. -/
def nonceLen : Nat := 12

/-- `codec_err`. -/
def codecErr (display : String) : IoError := ⟨.invalidData, display⟩

/-- `RpcCipher`, over an implementation of AES-256-GCM. -/
structure RpcCipher where
  aead : Aead
  key  : Key

namespace RpcCipher

variable (cipher : RpcCipher)

/-- `encrypt`, under the nonce that was drawn for this message. -/
def encrypt (nonce : Nonce) (plaintext : List UInt8) : Except IoError (List UInt8) :=
  match cipher.aead.encrypt cipher.key nonce plaintext with
  | some ciphertext => .ok (nonce.val ++ ciphertext)
  | none            => .error (codecErr "aead::Error")

/-- `decrypt`. -/
def decrypt (payload : List UInt8) : Except IoError (List UInt8) :=
  if h : payload.length < nonceLen then .error ⟨.invalidData, "encrypted frame is too short"⟩
  else
    have hlen : (payload.take nonceLen).length = 12 := by
      rw [List.length_take]
      exact Nat.min_eq_left (Nat.le_of_not_lt h)
    match cipher.aead.decrypt cipher.key ⟨payload.take nonceLen, hlen⟩ (payload.drop nonceLen) with
    | some plaintext => .ok plaintext
    | none           => .error (codecErr "aead::Error")

/-- A payload is 28 bytes longer than the text: the nonce and the tag. -/
theorem length_encrypt {nonce : Nonce} {plaintext payload : List UInt8}
    (h : cipher.encrypt nonce plaintext = .ok payload) :
    payload.length = plaintext.length + 28 := by
  unfold encrypt at h
  cases hc : cipher.aead.encrypt cipher.key nonce plaintext with
  | none => rw [hc] at h; cases h
  | some ciphertext =>
    rw [hc] at h
    cases h
    rw [List.length_append, nonce.property, cipher.aead.length_encrypt hc]
    omega

/-- A text that is not too long can be encrypted. -/
theorem encrypt_short (nonce : Nonce) (plaintext : List UInt8)
    (h : plaintext.length < 2 ^ 36) : ∃ payload, cipher.encrypt nonce plaintext = .ok payload := by
  obtain ⟨ciphertext, hc⟩ := Option.isSome_iff_exists.mp
    (cipher.aead.encrypt_short cipher.key nonce plaintext h)
  exact ⟨nonce.val ++ ciphertext, by unfold encrypt; rw [hc]⟩

/-- Decryption undoes encryption. -/
theorem decrypt_encrypt {nonce : Nonce} {plaintext payload : List UInt8}
    (h : cipher.encrypt nonce plaintext = .ok payload) :
    cipher.decrypt payload = .ok plaintext := by
  have hlen := cipher.length_encrypt h
  unfold encrypt at h
  cases hc : cipher.aead.encrypt cipher.key nonce plaintext with
  | none => rw [hc] at h; cases h
  | some ciphertext =>
    rw [hc] at h
    cases h
    have htake : (nonce.val ++ ciphertext).take nonceLen = nonce.val :=
      List.take_left' nonce.property
    have hdrop : (nonce.val ++ ciphertext).drop nonceLen = ciphertext :=
      List.drop_left' nonce.property
    unfold decrypt
    rw [dif_neg (by unfold nonceLen; omega)]
    simp only [htake, hdrop]
    rw [cipher.aead.decrypt_encrypt hc]

end RpcCipher

/-! ### Writing -/

/-- `u32::to_le_bytes`. -/
def toLeBytes (n : UInt32) : List UInt8 :=
  [0, 1, 2, 3].map fun i => UInt8.ofNat (n.toNat / 256 ^ i)

/-- `u32::from_le_bytes`. -/
def fromLeBytes (bytes : List UInt8) : UInt32 :=
  UInt32.ofNat (bytes.foldr (fun b high => b.toNat + 256 * high) 0)

/-- A number is read from the bytes that were written for it. -/
theorem fromLeBytes_toLeBytes (n : UInt32) : fromLeBytes (toLeBytes n) = n := by
  have hn : n.toNat < 2 ^ 32 := n.toNat_lt
  have hsum : (toLeBytes n).foldr (fun b high => b.toNat + 256 * high) 0 = n.toNat := by
    simp only [toLeBytes, List.map_cons, List.map_nil, List.foldr_cons, List.foldr_nil,
      UInt8.toNat_ofNat', Nat.reducePow]
    omega
  unfold fromLeBytes
  rw [hsum, UInt32.ofNat_toNat]

/-- Four bytes are written as they were read. -/
theorem toLeBytes_fromLeBytes {bytes : List UInt8} (h : bytes.length = 4) :
    toLeBytes (fromLeBytes bytes) = bytes := by
  obtain ⟨a, b, c, d, rfl⟩ : ∃ a b c d, bytes = [a, b, c, d] := by
    rcases bytes with _ | ⟨a, _ | ⟨b, _ | ⟨c, _ | ⟨d, _ | ⟨e, rest⟩⟩⟩⟩⟩ <;> simp at h ⊢
  have ha := a.toNat_lt
  have hb := b.toNat_lt
  have hc := c.toNat_lt
  have hd := d.toNat_lt
  have hsum : (fromLeBytes [a, b, c, d]).toNat
      = a.toNat + 256 * (b.toNat + 256 * (c.toNat + 256 * (d.toNat + 256 * 0))) := by
    refine UInt32.toNat_ofNat_of_lt' (show _ < 2 ^ 32 from ?_)
    simp only [List.foldr_cons, List.foldr_nil]
    omega
  simp only [toLeBytes, List.map_cons, List.map_nil, hsum, Nat.reducePow, List.cons.injEq,
    and_true, ← UInt8.toNat_inj, UInt8.toNat_ofNat']
  omega

/-- `Write::write_all` on a stream that takes everything. -/
def writeAll (bytes : List UInt8) : EStateM IoError (List UInt8) Unit :=
  modify (· ++ bytes)

variable {α : Type} (cipher : RpcCipher) (codec : Codec α)

/-- `write_message`; the state is what the stream has taken. -/
def writeMessage (nonce : Nonce) (value : α) : EStateM IoError (List UInt8) Unit := do
  let bytes := codec.put value
  -- the nonce is drawn inside `encrypt`; here it comes from outside
  let bytes ← given (cipher.encrypt nonce bytes)
  if 2 ^ 32 ≤ bytes.length then
    throw ⟨.invalidInput, "encrypted frame exceeds u32 length limit"⟩
  else
    writeAll (toLeBytes (UInt32.ofNat bytes.length))
    writeAll bytes

/-- The bytes of one message on the wire. -/
def frame (nonce : Nonce) (value : α) : Except IoError (List UInt8) :=
  match cipher.encrypt nonce (codec.put value) with
  | .error e  => .error e
  | .ok bytes =>
    if 2 ^ 32 ≤ bytes.length then
      .error ⟨.invalidInput, "encrypted frame exceeds u32 length limit"⟩
    else .ok (toLeBytes (UInt32.ofNat bytes.length) ++ bytes)

/-- Writing appends one whole frame, or fails and writes nothing. -/
theorem writeMessage_apply (nonce : Nonce) (value : α) (sink : List UInt8) :
    writeMessage cipher codec nonce value sink = match frame cipher codec nonce value with
      | .ok bytes => .ok () (sink ++ bytes)
      | .error e  => .error e sink := by
  unfold writeMessage frame
  cases he : cipher.encrypt nonce (codec.put value) with
  | error e => exact bind_of_error (given_of_error rfl sink)
  | ok bytes =>
    rw [bind_of_ok (given_of_ok rfl sink)]
    dsimp only
    by_cases hlen : 2 ^ 32 ≤ bytes.length
    · rw [if_pos hlen, if_pos hlen]
      rfl
    · rw [if_neg hlen, if_neg hlen]
      show EStateM.Result.ok () (sink ++ _ ++ bytes) = .ok () (sink ++ (_ ++ bytes))
      rw [List.append_assoc]

/-- Inversion: a frame is a length and a payload that decrypts to the encoded message. -/
theorem frame_eq_ok {nonce : Nonce} {value : α} {bytes : List UInt8}
    (h : frame cipher codec nonce value = .ok bytes) :
    ∃ payload, cipher.encrypt nonce (codec.put value) = .ok payload ∧ payload.length < 2 ^ 32 ∧
      bytes = toLeBytes (UInt32.ofNat payload.length) ++ payload := by
  unfold frame at h
  cases he : cipher.encrypt nonce (codec.put value) with
  | error e => rw [he] at h; cases h
  | ok payload =>
    rw [he] at h
    dsimp only at h
    by_cases hlen : 2 ^ 32 ≤ payload.length
    · rw [if_pos hlen] at h; cases h
    · rw [if_neg hlen] at h
      cases h
      exact ⟨payload, rfl, Nat.lt_of_not_le hlen, rfl⟩

/-- A frame exists exactly when the encrypted message has less than 2^32 bytes. -/
theorem frame_ok_iff (nonce : Nonce) (value : α) :
    (∃ bytes, frame cipher codec nonce value = .ok bytes) ↔
      (codec.put value).length + 28 < 2 ^ 32 := by
  constructor
  · intro ⟨bytes, h⟩
    obtain ⟨payload, henc, hlen, -⟩ := frame_eq_ok cipher codec h
    have := cipher.length_encrypt henc
    omega
  · intro hfits
    obtain ⟨payload, henc⟩ := cipher.encrypt_short nonce (codec.put value) (by omega)
    -- the nonce and the tag take 28 bytes
    have := cipher.length_encrypt henc
    unfold frame
    rw [henc]
    dsimp only
    rw [if_neg (by omega)]
    exact ⟨_, rfl⟩

/-! ### Reading -/

/-- `Read::read_exact`; the state is what the stream still holds before it ends. -/
def readExact (n : Nat) : EStateM IoError (List UInt8) (List UInt8) := fun s =>
  if s.length < n then .error .eof [] else .ok (s.take n) (s.drop n)

/-- `postcard::from_bytes`: what follows the value is ignored. -/
def fromBytes (bytes : List UInt8) : Except IoError α :=
  match codec.take bytes with
  | .ok (value, _) => .ok value
  | .error e       => .error (codecErr e.display)

/-- `read_message`. -/
def readMessage : EStateM IoError (List UInt8) α := do
  let lenBytes ← readExact 4
  let len := fromLeBytes lenBytes
  let payload ← readExact len.toNat
  let payload ← given (cipher.decrypt payload)
  -- `from_bytes` does not ask for the end of the payload
  given (fromBytes codec payload)

/-- As many bytes are read as are asked for. -/
theorem readExact_append {n : Nat} {bytes : List UInt8} (h : bytes.length = n)
    (rest : List UInt8) : readExact n (bytes ++ rest) = .ok bytes rest := by
  unfold readExact
  rw [if_neg (by rw [List.length_append]; omega), List.take_left' h, List.drop_left' h]

/-- Reading succeeds exactly where enough bytes have arrived. -/
theorem readExact_eq_ok {n : Nat} {bytes taken rest : List UInt8} :
    readExact n bytes = .ok taken rest ↔ taken.length = n ∧ bytes = taken ++ rest := by
  constructor
  · intro h
    unfold readExact at h
    by_cases hlen : bytes.length < n
    · rw [if_pos hlen] at h
      cases h
    · rw [if_neg hlen] at h
      cases h
      exact ⟨List.length_take_of_le (Nat.le_of_not_lt hlen), (List.take_append_drop n bytes).symm⟩
  · rintro ⟨hlen, rfl⟩
    exact readExact_append hlen rest

/-- A length is written in four bytes. -/
theorem length_toLeBytes (n : UInt32) : (toLeBytes n).length = 4 := rfl

/-- Reading takes exactly one payload with its length, and decodes what it decrypts to. -/
theorem readMessage_payload {plaintext payload : List UInt8} (hlen : payload.length < 2 ^ 32)
    (hdec : cipher.decrypt payload = .ok plaintext) (rest : List UInt8) :
    readMessage cipher codec (toLeBytes (UInt32.ofNat payload.length) ++ payload ++ rest)
      = given (fromBytes codec plaintext) rest := by
  have hu32 : (UInt32.ofNat payload.length).toNat = payload.length :=
    UInt32.toNat_ofNat_of_lt' hlen
  unfold readMessage
  rw [List.append_assoc, bind_of_ok (readExact_append (length_toLeBytes _) _),
    fromLeBytes_toLeBytes, bind_of_ok (readExact_append hu32.symm rest),
    bind_of_ok (given_of_ok hdec rest)]

/-- Inversion: a length, a payload, and what this decrypts and decodes to. -/
theorem readMessage_eq_ok {stream rest : List UInt8} {value : α} :
    readMessage cipher codec stream = .ok value rest ↔
      ∃ payload plaintext, payload.length < 2 ^ 32 ∧ cipher.decrypt payload = .ok plaintext ∧
        fromBytes codec plaintext = .ok value ∧
        stream = toLeBytes (UInt32.ofNat payload.length) ++ payload ++ rest := by
  constructor
  · intro h
    -- each of the four steps succeeded
    obtain ⟨lenBytes, s, hlen, h₁⟩ := bind_eq_ok.mp h
    obtain ⟨payload, s', hpayload, h₂⟩ := bind_eq_ok.mp h₁
    obtain ⟨plaintext, s'', hgiven, h₃⟩ := bind_eq_ok.mp h₂
    obtain ⟨hdec, rfl⟩ := observe_eq_ok.mp hgiven
    obtain ⟨hvalue, rfl⟩ := observe_eq_ok.mp h₃
    obtain ⟨hfour, rfl⟩ := readExact_eq_ok.mp hlen
    obtain ⟨hn, rfl⟩ := readExact_eq_ok.mp hpayload
    refine ⟨payload, plaintext, hn ▸ UInt32.toNat_lt _, hdec, hvalue, ?_⟩
    rw [hn, UInt32.ofNat_toNat, toLeBytes_fromLeBytes hfour, List.append_assoc]
  · rintro ⟨payload, plaintext, hlen, hdec, hvalue, rfl⟩
    rw [readMessage_payload cipher codec hlen hdec]
    exact given_of_ok hvalue rest

/-- A frame can be read at any type. -/
theorem readMessage_at {β : Type} (codec' : Codec β) {nonce : Nonce} {value : α}
    {bytes : List UInt8} (h : frame cipher codec nonce value = .ok bytes) (rest : List UInt8) :
    readMessage cipher codec' (bytes ++ rest)
      = given (fromBytes codec' (codec.put value)) rest := by
  obtain ⟨payload, henc, hlen, rfl⟩ := frame_eq_ok cipher codec h
  exact readMessage_payload cipher codec' hlen (cipher.decrypt_encrypt henc) rest

/-- A value is decoded from bytes that begin with it. -/
theorem fromBytes_eq_ok {β : Type} {codec : Codec β} {bytes : List UInt8} {v : β} :
    fromBytes codec bytes = .ok v ↔ ∃ left, codec.take bytes = .ok (v, left) := by
  unfold fromBytes
  cases codec.take bytes with
  | error e => simp
  | ok p =>
    obtain ⟨a, left⟩ := p
    simp

/-- What a frame is read as, at whatever type. -/
theorem readMessage_at_eq_ok {β : Type} {codec' : Codec β} {nonce : Nonce} {value : α} {v : β}
    {bytes rest rest' : List UInt8} (h : frame cipher codec nonce value = .ok bytes) :
    readMessage cipher codec' (bytes ++ rest) = .ok v rest' ↔
      (∃ left, codec'.take (codec.put value) = .ok (v, left)) ∧ rest' = rest := by
  rw [readMessage_at cipher codec codec' h rest, ← fromBytes_eq_ok]
  exact observe_eq_ok

/-- The encoding of a message that fits in a frame is decoded, whatever follows it. -/
theorem take_of_frame {nonce : Nonce} {value : α} {bytes : List UInt8}
    (h : frame cipher codec nonce value = .ok bytes) (rest : List UInt8) :
    codec.take (codec.put value ++ rest) = .ok (value, rest) := by
  have hfits := (frame_ok_iff cipher codec nonce value).mp ⟨bytes, h⟩
  exact codec.take_put value rest (by omega)

/-- Reading takes exactly one frame and returns its message. -/
theorem readMessage_frame {nonce : Nonce} {value : α} {bytes : List UInt8}
    (h : frame cipher codec nonce value = .ok bytes) (rest : List UInt8) :
    readMessage cipher codec (bytes ++ rest) = .ok value rest := by
  have htake := take_of_frame cipher codec h []
  rw [List.append_nil] at htake
  rw [readMessage_at cipher codec codec h rest]
  exact given_of_ok (by unfold fromBytes; rw [htake]) rest

/-- A frame alone is read to its end. -/
theorem readMessage_frame_nil {nonce : Nonce} {value : α} {bytes : List UInt8}
    (h : frame cipher codec nonce value = .ok bytes) :
    readMessage cipher codec bytes = .ok value [] := by
  have hread := readMessage_frame cipher codec h []
  rwa [List.append_nil] at hread

/-- A frame that is cut anywhere is an error. -/
theorem readMessage_short {nonce : Nonce} {value : α} {bytes cut : List UInt8}
    (h : frame cipher codec nonce value = .ok bytes) (hcut : cut <+: bytes) (hne : cut ≠ bytes) :
    readMessage cipher codec cut = .error .eof [] := by
  obtain ⟨payload, -, hlen, rfl⟩ := frame_eq_ok cipher codec h
  have hshort : cut.length < 4 + payload.length := by
    have hle := hcut.length_le
    rw [List.length_append, length_toLeBytes] at hle
    rcases Nat.lt_or_eq_of_le hle with hlt | heq
    · exact hlt
    · exact absurd (hcut.eq_of_length (by rw [List.length_append, length_toLeBytes, heq])) hne
  unfold readMessage
  by_cases h4 : cut.length < 4
  · -- not even the length arrives
    exact bind_of_error (by unfold readExact; rw [if_pos h4])
  · -- the length arrives whole, the payload does not
    have hsplit : cut = toLeBytes (UInt32.ofNat payload.length) ++ cut.drop 4 := by
      have htake := List.prefix_iff_eq_take.mp hcut
      have h4' : cut.take 4 = toLeBytes (UInt32.ofNat payload.length) := by
        rw [htake, List.take_take, Nat.min_eq_left (by omega),
          List.take_left' (length_toLeBytes _)]
      rw [← h4', List.take_append_drop]
    rw [hsplit, bind_of_ok (readExact_append (length_toLeBytes _) _), fromLeBytes_toLeBytes,
      UInt32.toNat_ofNat_of_lt' hlen]
    refine bind_of_error ?_
    unfold readExact
    rw [if_pos (by rw [List.length_drop]; omega)]

/-- What was written is read; or nothing was. -/
theorem writeMessage_cases (nonce : Nonce) (value : α) :
    (∃ bytes, (∀ sink, writeMessage cipher codec nonce value sink = .ok () (sink ++ bytes)) ∧
      (∀ rest, readMessage cipher codec (bytes ++ rest) = .ok value rest) ∧
      ∀ cut, cut <+: bytes → cut ≠ bytes → readMessage cipher codec cut = .error .eof [])
    ∨ ∃ e, ∀ sink, writeMessage cipher codec nonce value sink = .error e sink := by
  cases hf : frame cipher codec nonce value with
  | error e => exact .inr ⟨e, fun sink => by rw [writeMessage_apply, hf]⟩
  | ok bytes =>
    exact .inl ⟨bytes, fun sink => by rw [writeMessage_apply, hf],
      readMessage_frame cipher codec hf, fun cut => readMessage_short cipher codec hf⟩

/-- A message can be written exactly if it fits. -/
theorem writeMessage_ok_iff (nonce : Nonce) (value : α) (sink : List UInt8) :
    (∃ sink', writeMessage cipher codec nonce value sink = .ok () sink') ↔
      (codec.put value).length + 28 < 2 ^ 32 := by
  rw [← frame_ok_iff cipher codec nonce value, writeMessage_apply]
  cases frame cipher codec nonce value <;> simp

/-! ### Conversations -/

/-- A message of either direction. -/
inductive Message where
  | request (request : Request)
  | result (result : RpcResult Response)
  deriving DecidableEq

/-- The type a message is read at. -/
inductive MessageType where
  | request
  | result

namespace Message

def type : Message → MessageType
  | .request _ => .request
  | .result _  => .result

/-- Write a message. -/
def write (nonce : Nonce) : Message → EStateM IoError (List UInt8) Unit
  | .request r => writeMessage cipher Request.codec nonce r
  | .result r  => writeMessage cipher RpcResult.codec nonce r

/-- Read a message of a given type. -/
def read : MessageType → EStateM IoError (List UInt8) Message
  | .request => .request <$> readMessage cipher Request.codec
  | .result  => .result <$> readMessage cipher RpcResult.codec

/-- The length of a message before it is encrypted. -/
def encodedLength : Message → Nat
  | .request r => (Request.codec.put r).length
  | .result r  => (RpcResult.codec.put r).length

/-- Whether a message fits in a frame once it is encrypted: 12 bytes of nonce and 16 of tag
    are added to it. -/
def Fits (m : Message) : Prop := m.encodedLength + 28 < 2 ^ 32

instance (m : Message) : Decidable m.Fits := inferInstanceAs (Decidable (_ < _))

/-- A request whose fields are no longer than those of one that fits in a frame. -/
theorem fits_of_fields {r r' : Request} (h : (request r').Fits)
    (hle : r.fields.length ≤ r'.fields.length) : (request r).Fits := by
  have hlong : (Request.codec.put r').length + 28 < 2 ^ 32 := h
  show (Request.codec.put r).length + 28 < 2 ^ 32
  rw [Request.length_put] at hlong ⊢
  omega

/-- Attributes fit in a frame, whatever they are. -/
theorem fits_attr (attr : FileAttr) : (result (.ok (.attr attr))).Fits := by
  have hattr : (Response.fields (.attr attr)).length ≤ 96 := FileAttr.within_codec attr
  have hresponse : (Response.codec.put (.attr attr)).length
      ≤ 5 + (Response.fields (.attr attr)).length := Postcard.Codec.length_put_enum_le _
  have hresult : (RpcResult.codec.put (.ok (.attr attr))).length
      ≤ 5 + (Response.codec.put (.attr attr)).length := Postcard.Codec.length_put_ok_le _ _ _
  show (RpcResult.codec.put (.ok (.attr attr))).length + 28 < 2 ^ 32
  omega

/-- Write messages one after another, each under its own nonce. -/
def writeEach : List (Nonce × Message) → EStateM IoError (List UInt8) Unit
  | []             => return ()
  | (n, m) :: rest => do
    m.write cipher n
    writeEach rest

/-- Read messages one after another. -/
def readEach : List MessageType → EStateM IoError (List UInt8) (List Message)
  | []        => return []
  | t :: rest => do
    let m ← read cipher t
    let ms ← readEach rest
    return m :: ms

/-- Writing one message, whatever its type, and reading what was written. -/
theorem write_cases (nonce : Nonce) (m : Message) :
    (∃ bytes, (∀ sink, m.write cipher nonce sink = .ok () (sink ++ bytes)) ∧
      (∀ rest, read cipher m.type (bytes ++ rest) = .ok m rest) ∧
      ∀ cut, cut <+: bytes → cut ≠ bytes → read cipher m.type cut = .error .eof [])
    ∨ ∃ e, ∀ sink, m.write cipher nonce sink = .error e sink := by
  cases m with
  | request r =>
    rcases writeMessage_cases cipher Request.codec nonce r with ⟨bytes, hw, hr, hshort⟩ | herr
    · refine .inl ⟨bytes, hw, fun rest => ?_, fun cut hcut hne => ?_⟩
      · rw [type, read, map_apply, hr]
      · rw [type, read, map_apply, hshort cut hcut hne]
    · exact .inr herr
  | result r =>
    rcases writeMessage_cases cipher RpcResult.codec nonce r with ⟨bytes, hw, hr, hshort⟩ | herr
    · refine .inl ⟨bytes, hw, fun rest => ?_, fun cut hcut hne => ?_⟩
      · rw [type, read, map_apply, hr]
      · rw [type, read, map_apply, hshort cut hcut hne]
    · exact .inr herr

/-- Exactly the messages that fit can be written. -/
theorem write_ok_iff (nonce : Nonce) (m : Message) (sink : List UInt8) :
    (∃ sink', m.write cipher nonce sink = .ok () sink') ↔ m.Fits := by
  cases m with
  | request r => exact writeMessage_ok_iff cipher Request.codec nonce r sink
  | result r => exact writeMessage_ok_iff cipher RpcResult.codec nonce r sink

/-- Messages that fit are written, and read back in order. -/
theorem readEach_writeEach (sent : List (Nonce × Message)) (h : ∀ s ∈ sent, s.2.Fits) :
    ∃ bytes, (∀ sink, writeEach cipher sent sink = .ok () (sink ++ bytes)) ∧
      ∀ rest, readEach cipher (sent.map (·.2.type)) (bytes ++ rest)
        = .ok (sent.map Prod.snd) rest := by
  induction sent with
  | nil => exact ⟨[], fun sink => by rw [List.append_nil]; rfl, fun rest => rfl⟩
  | cons s sent ih =>
    obtain ⟨n, m⟩ := s
    obtain ⟨more, hwrite, hread⟩ := ih (fun s hs => h s (List.mem_cons_of_mem _ hs))
    -- a message that fits is written
    obtain ⟨sink', hok⟩ := (write_ok_iff cipher n m []).mpr (h (n, m) (by simp))
    rcases write_cases cipher n m with ⟨bytes, hw, hr, -⟩ | ⟨e, he⟩
    · refine ⟨bytes ++ more, fun sink => ?_, fun rest => ?_⟩
      · rw [writeEach, bind_of_ok (hw sink), hwrite, List.append_assoc]
      · rw [List.map_cons, readEach, List.append_assoc, bind_of_ok (hr _),
          bind_of_ok (hread rest)]
        rfl
    · rw [he] at hok; cases hok

end Message

/-- **The wire round trip.**  Any messages that fit are written and read back in order, and
    exactly the bytes written are read; a frame cut anywhere is an error; and a message
    that does not fit is an error that writes nothing. -/
theorem wire_roundtrip :
    (∀ sent : List (Nonce × Message), (∀ s ∈ sent, s.2.Fits) →
      ∃ bytes, (∀ sink, Message.writeEach cipher sent sink = .ok () (sink ++ bytes)) ∧
        ∀ rest, Message.readEach cipher (sent.map (·.2.type)) (bytes ++ rest)
          = .ok (sent.map Prod.snd) rest)
    ∧ (∀ (nonce : Nonce) (m : Message) (bytes cut : List UInt8),
      m.write cipher nonce [] = .ok () bytes → cut <+: bytes → cut ≠ bytes →
        ∃ e s, Message.read cipher m.type cut = .error e s)
    ∧ ∀ (nonce : Nonce) (m : Message) (sink : List UInt8), ¬ m.Fits →
      ∃ e, m.write cipher nonce sink = .error e sink := by
  refine ⟨Message.readEach_writeEach cipher, ?_, ?_⟩
  · intro nonce m bytes cut hwrite hcut hne
    rcases Message.write_cases cipher nonce m with ⟨bytes', hw, -, hshort⟩ | ⟨e, he⟩
    · rw [hw, List.nil_append] at hwrite
      cases hwrite
      exact ⟨_, _, hshort cut hcut hne⟩
    · rw [he] at hwrite; cases hwrite
  · intro nonce m sink hfits
    rcases Message.write_cases cipher nonce m with ⟨bytes, hw, -, -⟩ | ⟨e, he⟩
    · exact absurd ((Message.write_ok_iff cipher nonce m sink).mp ⟨_, hw sink⟩) hfits
    · exact ⟨e, he sink⟩

/-! ### Some frames -/

/-- The nonce that ends in this byte, behind zeros. -/
def nonceEnding (last : UInt8) : Nonce := ⟨List.replicate 11 0 ++ [last], rfl⟩

/-- A key of zeros. -/
def zeroKey : Key := ⟨List.replicate 32 0, rfl⟩

/-- What the server answers when nothing is at a path. -/
def notFound : RpcError := ⟨.notFound, "No such file or directory (os error 2)"⟩

/-- What AES-256-GCM makes of the bytes of `Stat "a"` under a key and a nonce of zeros. -/
def statRecord : Aead.Record where
  nonce := nonceEnding 0
  text := [0, 1, 97]
  cipher := [206, 166, 33, 253, 165, 84, 96, 199, 124, 21, 130, 235, 55, 101, 1, 98, 230, 250, 182]
  length_cipher := rfl

/-- What it makes of the bytes of `notFound`, under another nonce. -/
def notFoundRecord : Aead.Record where
  nonce := nonceEnding 1
  text := [1, 0, 38, 78, 111, 32, 115, 117, 99, 104, 32, 102, 105, 108, 101, 32, 111, 114, 32, 100,
    105, 114, 101, 99, 116, 111, 114, 121, 32, 40, 111, 115, 32, 101, 114, 114, 111, 114, 32, 50,
    41]
  cipher := [40, 193, 2, 108, 155, 86, 20, 169, 202, 104, 125, 199, 248, 147, 145, 181, 254, 49,
    200, 209, 232, 65, 5, 242, 114, 29, 191, 23, 178, 177, 251, 249, 136, 110, 200, 110, 68, 98,
    139, 48, 59, 117, 44, 125, 103, 38, 205, 220, 129, 97, 250, 27, 111, 84, 16, 103, 172]
  length_cipher := rfl

/-- The cipher on `Stat "a"` and its answer. -/
def statCipher : RpcCipher where
  aead := .recorded [statRecord, notFoundRecord]
  key := zeroKey

/-- The frame of a record: the length, the nonce and the ciphertext. -/
def frameOf (record : Aead.Record) : List UInt8 :=
  toLeBytes (UInt32.ofNat (record.nonce.1 ++ record.cipher).length) ++
    (record.nonce.1 ++ record.cipher)

/-- The frame of `Stat "a"`. -/
def statFrame : List UInt8 := frameOf statRecord

/-- A request and its answer are written one after the other, and read back, and what follows
    is left. -/
theorem wire_roundtrip_stat :
    let sent : List (Nonce × Message) :=
      [(nonceEnding 0, .request (.stat "a")), (nonceEnding 1, .result (.error notFound))]
    let bytes : List UInt8 := statFrame ++ frameOf notFoundRecord
    Message.writeEach statCipher sent [] = .ok () bytes ∧
      Message.readEach statCipher [.request, .result] (bytes ++ [7])
        = .ok [.request (.stat "a"), .result (.error notFound)] [7] := by
  intro sent bytes
  have hfits : ∀ s ∈ sent, s.2.Fits := by
    intro s hs
    rcases List.mem_cons.mp hs with rfl | hs
    · decide
    · rw [List.mem_singleton.mp hs]
      decide
  obtain ⟨written, hwrite, hread⟩ := (wire_roundtrip statCipher).1 sent hfits
  have hbytes : Message.writeEach statCipher sent [] = .ok () bytes := rfl
  have heq : written = bytes := by
    have := hwrite []
    rw [hbytes] at this
    injection this with _ h
    exact h.symm
  exact ⟨hbytes, heq ▸ hread [7]⟩

/-- Its bytes are a frame that is read as `Stat "a"`. -/
theorem read_statFrame : readMessage statCipher Request.codec statFrame = .ok (.stat "a") [] := by
  have hframe : frame statCipher Request.codec (nonceEnding 0) (.stat "a") = .ok statFrame := rfl
  exact readMessage_frame_nil statCipher Request.codec hframe

/-- What AES-256-GCM makes of the bytes of `RemoveFile "f"`. -/
def removeRecord : Aead.Record where
  nonce := nonceEnding 2
  text := [7, 1, 102]
  cipher := [185, 45, 80, 2, 48, 169, 32, 47, 199, 39, 133, 164, 205, 207, 70, 180, 83, 62, 149]
  length_cipher := rfl

/-- What it makes of the bytes of the answer `Ok(Empty)`. -/
def removedRecord : Aead.Record where
  nonce := nonceEnding 3
  text := [0, 5]
  cipher := [171, 203, 123, 186, 195, 121, 196, 248, 123, 98, 151, 132, 200, 121, 6, 240, 48, 200]
  length_cipher := rfl

/-- What it makes of `RemoveFile "f"` when it is sent again. -/
def removeAgainRecord : Aead.Record where
  nonce := nonceEnding 4
  text := [7, 1, 102]
  cipher := [207, 63, 136, 216, 168, 73, 186, 221, 91, 216, 121, 250, 58, 165, 6, 14, 199, 119, 222]
  length_cipher := rfl

/-- The cipher on these and on `notFound`. -/
def removeCipher : RpcCipher where
  aead := .recorded [removeRecord, removedRecord, removeAgainRecord, notFoundRecord]
  key := zeroKey

/-- What is read from the frames of these records. -/
theorem read_removeRecord :
    readMessage removeCipher Request.codec (frameOf removeRecord) = .ok (.removeFile "f") [] := by
  have hframe : frame removeCipher Request.codec (nonceEnding 2) (.removeFile "f")
      = .ok (frameOf removeRecord) := rfl
  exact readMessage_frame_nil removeCipher Request.codec hframe

@[inherit_doc read_removeRecord]
theorem read_removeAgainRecord : readMessage removeCipher Request.codec (frameOf removeAgainRecord)
    = .ok (.removeFile "f") [] := by
  have hframe : frame removeCipher Request.codec (nonceEnding 4) (.removeFile "f")
      = .ok (frameOf removeAgainRecord) := rfl
  exact readMessage_frame_nil removeCipher Request.codec hframe

@[inherit_doc read_removeRecord]
theorem read_removedRecord :
    readMessage removeCipher RpcResult.codec (frameOf removedRecord) = .ok (.ok .empty) [] := by
  have hframe : frame removeCipher RpcResult.codec (nonceEnding 3) (.ok .empty)
      = .ok (frameOf removedRecord) := rfl
  exact readMessage_frame_nil removeCipher RpcResult.codec hframe

@[inherit_doc read_removeRecord]
theorem read_notFoundRecord : readMessage removeCipher RpcResult.codec (frameOf notFoundRecord)
    = .ok (.error notFound) [] := by
  have hframe : frame removeCipher RpcResult.codec (nonceEnding 1) (.error notFound)
      = .ok (frameOf notFoundRecord) := rfl
  exact readMessage_frame_nil removeCipher RpcResult.codec hframe

end Netfilum
