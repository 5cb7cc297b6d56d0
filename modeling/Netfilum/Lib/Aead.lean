import Mathlib.Algebra.Group.Nat.Defs

namespace Crypto

/-!
# Authenticated encryption

AES-256-GCM as its users see it: a 32-byte key, a 12-byte nonce chosen for each message,
and a ciphertext 16 bytes longer than the text.  Nothing is assumed about secrecy.
-/

/-- A byte string of a fixed length. -/
abbrev Bytes (n : Nat) : Type := { bytes : List UInt8 // bytes.length = n }

abbrev Key := Bytes 32
abbrev Nonce := Bytes 12

/-- Encryption may refuse a text that is too long, decryption a text that was not
    encrypted under this key and nonce. -/
structure Aead where
  encrypt         : Key → Nonce → List UInt8 → Option (List UInt8)
  decrypt         : Key → Nonce → List UInt8 → Option (List UInt8)
  encrypt_short   : ∀ key nonce text, text.length < 2 ^ 36 → (encrypt key nonce text).isSome
  length_encrypt  : ∀ {key nonce text cipher}, encrypt key nonce text = some cipher →
    cipher.length = text.length + 16
  decrypt_encrypt : ∀ {key nonce text cipher}, encrypt key nonce text = some cipher →
    decrypt key nonce cipher = some text

namespace Aead

/-- Only what was encrypted under a key and nonce is decrypted under them. -/
def Ideal (aead : Aead) : Prop := ∀ key nonce text cipher,
  aead.decrypt key nonce cipher = some text → aead.encrypt key nonce text = some cipher

/-- Sixteen zero bytes. -/
def zeroTag : List UInt8 := List.replicate 16 0

/-- Exchange two byte strings and keep all others. -/
def exchange (a b bytes : List UInt8) : List UInt8 :=
  if bytes = a then b else if bytes = b then a else bytes

/-- Exchanging twice gives the bytes back. -/
theorem exchange_exchange (a b bytes : List UInt8) :
    exchange a b (exchange a b bytes) = bytes := by
  unfold exchange
  by_cases ha : bytes = a
  · rw [if_pos ha, ha]
    by_cases hab : b = a
    · rw [if_pos hab, hab]
    · rw [if_neg hab, if_pos rfl]
  · rw [if_neg ha]
    by_cases hb : bytes = b
    · rw [if_pos hb, if_pos rfl, hb]
    · rw [if_neg hb, if_neg ha, if_neg hb]

/-- Byte strings of one length are exchanged without a change of length. -/
theorem length_exchange {a b : List UInt8} (h : a.length = b.length) (bytes : List UInt8) :
    (exchange a b bytes).length = bytes.length := by
  unfold exchange
  split
  · rename_i ha; rw [ha, h]
  · split
    · rename_i hb; rw [hb, h]
    · rfl

/-- What a text was encrypted to under a nonce. -/
structure Record where
  nonce  : Nonce
  text   : List UInt8
  cipher : List UInt8
  length_cipher : cipher.length = text.length + 16

/-- Exchange the text recorded for a nonce, with a tag of zeros, and its ciphertext. -/
def swap (records : List Record) (nonce : Nonce) (bytes : List UInt8) : List UInt8 :=
  match records.find? (·.nonce = nonce) with
  | some r => exchange (r.text ++ zeroTag) r.cipher bytes
  | none   => bytes

/-- Swapping twice gives the bytes back. -/
theorem swap_swap (records : List Record) (nonce : Nonce) (bytes : List UInt8) :
    swap records nonce (swap records nonce bytes) = bytes := by
  unfold swap
  cases records.find? (·.nonce = nonce) with
  | none => rfl
  | some r => exact exchange_exchange _ _ bytes

/-- Swapping keeps the length. -/
theorem length_swap (records : List Record) (nonce : Nonce) (bytes : List UInt8) :
    (swap records nonce bytes).length = bytes.length := by
  unfold swap
  cases records.find? (·.nonce = nonce) with
  | none => rfl
  | some r =>
    refine length_exchange ?_ bytes
    rw [List.length_append, r.length_cipher]
    rfl

/-- The laws can be met: under a recorded nonce this cipher encrypts the recorded text as it was
    recorded, and it encrypts (almost) every other text by appending a tag of zeros. -/
def recorded (records : List Record) : Aead where
  encrypt _ nonce p := some (swap records nonce (p ++ zeroTag))
  decrypt _ nonce c :=
    let p := swap records nonce c
    if p.drop (p.length - 16) = zeroTag then some (p.take (p.length - 16)) else none
  encrypt_short _ _ _ _ := rfl
  length_encrypt {_ _ p _} hc := by
    cases hc
    rw [length_swap, List.length_append]
    rfl
  decrypt_encrypt {_ _ p _} hc := by
    cases hc
    have hlen : (p ++ zeroTag).length - 16 = p.length := by
      rw [List.length_append]; exact Nat.add_sub_cancel p.length 16
    simp only [swap_swap, hlen, List.drop_left, List.take_left, if_true]

/-- It decrypts only what it encrypts. -/
theorem ideal_recorded (records : List Record) : (recorded records).Ideal := by
  intro _ nonce p c hdec
  have hdec : (if (swap records nonce c).drop ((swap records nonce c).length - 16) = zeroTag
      then some ((swap records nonce c).take ((swap records nonce c).length - 16)) else none)
      = some p := hdec
  show some (swap records nonce (p ++ zeroTag)) = some c
  split at hdec
  · rename_i htag
    injection hdec with hp
    have hsplit : p ++ zeroTag = swap records nonce c := by
      rw [← hp]
      exact (congrArg _ htag.symm).trans (List.take_append_drop _ _)
    rw [hsplit, swap_swap]
  · cases hdec

end Aead

end Crypto
