namespace Utf8

/-!
# UTF-8

Strings as bytes and back, as Rust's standard library converts them.

* `encode s` — the bytes of a string.
* `decode bytes` — `String::from_utf8`; `decode_encode` says that it reads what was written.
* `lossy bytes` — `String::from_utf8_lossy`: every maximal ill-formed sequence becomes
  one replacement character; `lossy_encode` says that valid text is kept.
-/

/-- The UTF-8 bytes of a list of characters. -/
def encodeChars (cs : List Char) : List UInt8 := cs.flatMap String.utf8EncodeChar

/-- The UTF-8 bytes of a string. -/
def encode (s : String) : List UInt8 := encodeChars s.toList

/-- No characters have no bytes. -/
@[simp] theorem encodeChars_nil : encodeChars [] = [] := rfl

/-- The bytes of a character come before those of the others. -/
theorem encodeChars_cons (c : Char) (cs : List Char) :
    encodeChars (c :: cs) = String.utf8EncodeChar c ++ encodeChars cs := rfl

/-- The bytes are those of Lean's own encoding. -/
theorem toByteArray_encodeChars (cs : List Char) :
    (encodeChars cs).toByteArray = cs.utf8Encode := by
  simp [encodeChars, List.utf8Encode]

/-- `String::from_utf8`. -/
def decode (bytes : List UInt8) : Option String :=
  bytes.toByteArray.utf8Decode?.map fun cs => String.ofList cs.toList

/-- An encoded text is decoded as itself. -/
@[simp] theorem decode_encode (s : String) : decode (encode s) = some s := by
  unfold decode encode
  rw [toByteArray_encodeChars, List.utf8Decode?_utf8Encode, Option.map_some, List.toList_toArray,
    String.ofList_toList]

/-- What is read are the bytes of the string. -/
theorem encode_of_decode {bytes : List UInt8} {s : String} (h : decode bytes = some s) :
    encode s = bytes := by
  obtain ⟨cs, hcs, rfl⟩ := Option.map_eq_some_iff.mp h
  have hsome : bytes.toByteArray.utf8Decode?.isSome = true := by
    rw [hcs]
    rfl
  have hget := ByteArray.utf8Encode_get_utf8Decode? (h := hsome)
  rw [← List.toByteArray_inj, ← hget]
  unfold encode
  rw [String.toList_ofList, toByteArray_encodeChars]
  simp only [hcs, Option.get_some]

/-- A string is determined by its bytes. -/
theorem encode_injective {s s' : String} (h : encode s = encode s') : s = s' := by
  have := decode_encode s
  rw [h, decode_encode, Option.some.injEq] at this
  exact this.symm

/-- Texts one after another are encoded one after another. -/
theorem encodeChars_append (cs cs' : List Char) :
    encodeChars (cs ++ cs') = encodeChars cs ++ encodeChars cs' := List.flatMap_append

/-- Different texts have different bytes. -/
theorem encodeChars_injective {cs cs' : List Char} (h : encodeChars cs = encodeChars cs') :
    cs = cs' := by
  have hencode : encode (String.ofList cs) = encode (String.ofList cs') := by
    unfold encode
    rw [String.toList_ofList, String.toList_ofList, h]
  exact String.ofList_injective (encode_injective hencode)

/-- An ASCII byte stands for the character it is the code of. -/
theorem mem_utf8EncodeChar {c : Char} {b : UInt8} (hb : b.toNat < 128)
    (h : b ∈ String.utf8EncodeChar c) : c.toNat = b.toNat := by
  have hv : c.val.toNat = c.toNat := rfl
  have hhigh : ∀ n, 128 ≤ n → n < 256 → b ≠ UInt8.ofNat n := by
    rintro n hlow hlt rfl
    rw [UInt8.toNat_ofNat_of_lt' hlt] at hb
    omega
  unfold String.utf8EncodeChar at h
  dsimp only at h
  split at h
  · obtain rfl := List.mem_singleton.mp h
    rw [UInt8.toNat_ofNat_of_lt' (show _ < 256 by omega), hv]
  · -- all bytes of a longer sequence are 128 or more
    exfalso
    split at h
    · simp only [List.mem_cons, List.not_mem_nil, or_false] at h
      rcases h with h | h <;> exact hhigh _ (by omega) (by omega) h
    · split at h
      · simp only [List.mem_cons, List.not_mem_nil, or_false] at h
        rcases h with h | h | h <;> exact hhigh _ (by omega) (by omega) h
      · simp only [List.mem_cons, List.not_mem_nil, or_false] at h
        rcases h with h | h | h | h <;> exact hhigh _ (by omega) (by omega) h

/-- A byte below 128 is that of a character of the text. -/
theorem mem_encodeChars {cs : List Char} {b : UInt8} (hb : b.toNat < 128)
    (h : b ∈ encodeChars cs) : ∃ c ∈ cs, c.toNat = b.toNat := by
  obtain ⟨c, hc, hmem⟩ := List.mem_flatMap.mp h
  exact ⟨c, hc, mem_utf8EncodeChar hb hmem⟩

/-! ### Lossy decoding -/

/-- Whether a byte continues a character. -/
def isCont (b : Option UInt8) : Bool :=
  match b with
  | some b => 0x80 ≤ b ∧ b ≤ 0xBF
  | none   => false

/-- Whether `b` may follow the first byte `a` of a three- or four-byte character. -/
def isSecond (a : UInt8) (b : Option UInt8) : Bool :=
  match b with
  | none   => false
  | some b =>
    if a = 0xE0 then 0xA0 ≤ b ∧ b ≤ 0xBF
    else if a = 0xED then 0x80 ≤ b ∧ b ≤ 0x9F
    else if a = 0xF0 then 0x90 ≤ b ∧ b ≤ 0xBF
    else if a = 0xF4 then 0x80 ≤ b ∧ b ≤ 0x8F
    else 0x80 ≤ b ∧ b ≤ 0xBF

/-- The length of the ill-formed sequence that starts with `a`: the longest beginning of
    a character, at least one byte. -/
def badLength (a : UInt8) (rest : List UInt8) : Nat :=
  if 0xE0 ≤ a ∧ a ≤ 0xEF then
    if isSecond a rest[0]? then 2 else 1
  else if 0xF0 ≤ a ∧ a ≤ 0xF4 then
    if isSecond a rest[0]? then
      if isCont rest[1]? then 3 else 2
    else 1
  else 1

/-- Decode at most `fuel` characters, replacing ill-formed sequences. -/
def lossyChars : Nat → List UInt8 → List Char
  | 0, _ => []
  | _, [] => []
  | fuel + 1, a :: rest =>
    match (a :: rest).toByteArray.utf8DecodeChar? 0 with
    | some c => c :: lossyChars fuel ((a :: rest).drop c.utf8Size)
    | none   => '\uFFFD' :: lossyChars fuel ((a :: rest).drop (badLength a rest))

/-- `String::from_utf8_lossy`. -/
def lossy (bytes : List UInt8) : String := String.ofList (lossyChars bytes.length bytes)

/-- Decoding is lossless on encoded texts. -/
theorem lossyChars_encodeChars (cs : List Char) (fuel : Nat)
    (h : (encodeChars cs).length ≤ fuel) : lossyChars fuel (encodeChars cs) = cs := by
  induction cs generalizing fuel with
  | nil => cases fuel <;> rfl
  | cons c cs ih =>
    have hlen : (String.utf8EncodeChar c).length = c.utf8Size := String.length_utf8EncodeChar c
    have hpos : 0 < c.utf8Size := c.utf8Size_pos
    rw [encodeChars_cons, List.length_append, hlen] at h
    obtain ⟨fuel, rfl⟩ : ∃ k, fuel = k + 1 := ⟨fuel - 1, by omega⟩
    obtain ⟨a, rest, hsplit⟩ : ∃ a rest, encodeChars (c :: cs) = a :: rest := by
      cases he : encodeChars (c :: cs) with
      | nil =>
        rw [encodeChars_cons, List.append_eq_nil_iff] at he
        rw [he.1] at hlen
        simp only [List.length_nil] at hlen
        omega
      | cons a rest => exact ⟨a, rest, rfl⟩
    have hdec : (a :: rest).toByteArray.utf8DecodeChar? 0 = some c := by
      rw [← hsplit, toByteArray_encodeChars, List.utf8DecodeChar?_utf8Encode_cons]
    have hdrop : (a :: rest).drop c.utf8Size = encodeChars cs := by
      rw [← hsplit, encodeChars_cons, ← hlen, List.drop_left]
    rw [hsplit]
    simp only [lossyChars, hdec, hdrop]
    rw [ih fuel (by omega)]

/-- Valid text is kept as it is. -/
theorem lossy_encode (s : String) : lossy (encode s) = s := by
  unfold lossy encode
  rw [lossyChars_encodeChars _ _ (Nat.le_refl _), String.ofList_toList]

end Utf8
