import Mathlib.Algebra.Group.Nat.Defs

namespace Utf16

/-!
# UTF-16

Text from 16-bit units, as `char::decode_utf16` reads it: a surrogate pair is one
character, and a surrogate on its own becomes a replacement character.

* `encode` — the units of a text; what it gives is well-formed.
* `lossy_encode` — well-formed text is read as it is.
-/

def isLead (u : UInt16) : Bool := 0xD800 ≤ u ∧ u ≤ 0xDBFF

def isTrail (u : UInt16) : Bool := 0xDC00 ≤ u ∧ u ≤ 0xDFFF

/-- The character of a surrogate pair. -/
def pair (u v : UInt16) : Char :=
  Char.ofNat (0x10000 + (u.toNat - 0xD800) * 0x400 + (v.toNat - 0xDC00))

/-- `to_string_lossy`, as characters. -/
def lossy : List UInt16 → List Char
  | []            => []
  | [u]           =>
    if isLead u ∨ isTrail u then ['\uFFFD'] else [Char.ofNat u.toNat]
  | u :: v :: rest =>
    if isLead u then
      if isTrail v then pair u v :: lossy rest else '\uFFFD' :: lossy (v :: rest)
    else if isTrail u then '\uFFFD' :: lossy (v :: rest)
    else Char.ofNat u.toNat :: lossy (v :: rest)

/-! ### Well-formed text -/

/-- The units of a character: one, or a surrogate pair. -/
def encodeChar (c : Char) : List UInt16 :=
  if c.toNat < 0x10000 then [UInt16.ofNat c.toNat]
  else [UInt16.ofNat (0xD800 + (c.toNat - 0x10000) / 0x400),
    UInt16.ofNat (0xDC00 + (c.toNat - 0x10000) % 0x400)]

/-- The units of a text. -/
def encode (cs : List Char) : List UInt16 := cs.flatMap encodeChar

/-- A character is no surrogate, and at most 0x10FFFF. -/
theorem toNat_range (c : Char) :
    c.toNat < 0xD800 ∨ 0xE000 ≤ c.toNat ∧ c.toNat < 0x110000 := by
  rcases c.valid with h | ⟨hlo, hhi⟩
  · exact .inl h
  · exact .inr ⟨hlo, hhi⟩

/-- The leading surrogates are those of a range. -/
theorem isLead_iff (u : UInt16) : isLead u = true ↔ 0xD800 ≤ u.toNat ∧ u.toNat ≤ 0xDBFF := by
  simp [isLead, UInt16.le_iff_toNat_le]

/-- The trailing surrogates are those of the next range. -/
theorem isTrail_iff (u : UInt16) : isTrail u = true ↔ 0xDC00 ≤ u.toNat ∧ u.toNat ≤ 0xDFFF := by
  simp [isTrail, UInt16.le_iff_toNat_le]

/-- A unit that is no surrogate is a character of its own. -/
theorem lossy_cons {u : UInt16} (hlead : isLead u = false) (htrail : isTrail u = false)
    (rest : List UInt16) : lossy (u :: rest) = Char.ofNat u.toNat :: lossy rest := by
  cases rest <;> simp [lossy, hlead, htrail]

/-- A pair of surrogates is decoded as one character. -/
theorem lossy_pair {u v : UInt16} (hlead : isLead u = true) (htrail : isTrail v = true)
    (rest : List UInt16) : lossy (u :: v :: rest) = pair u v :: lossy rest := by
  rw [lossy, if_pos hlead, if_pos htrail]

/-- An encoded character is decoded, with what follows. -/
theorem lossy_encodeChar (c : Char) (rest : List UInt16) :
    lossy (encodeChar c ++ rest) = c :: lossy rest := by
  have hrange := toNat_range c
  unfold encodeChar
  by_cases hsmall : c.toNat < 0x10000
  · have hu : (UInt16.ofNat c.toNat).toNat = c.toNat := UInt16.toNat_ofNat_of_lt' hsmall
    rw [if_pos hsmall, List.singleton_append, lossy_cons, hu, Char.ofNat_toNat]
    · rw [Bool.eq_false_iff, Ne, isLead_iff, hu]
      omega
    · rw [Bool.eq_false_iff, Ne, isTrail_iff, hu]
      omega
  · have hu : (UInt16.ofNat (0xD800 + (c.toNat - 0x10000) / 0x400)).toNat
        = 0xD800 + (c.toNat - 0x10000) / 0x400 :=
      UInt16.toNat_ofNat_of_lt' (show _ < 2 ^ 16 by omega)
    have hv : (UInt16.ofNat (0xDC00 + (c.toNat - 0x10000) % 0x400)).toNat
        = 0xDC00 + (c.toNat - 0x10000) % 0x400 :=
      UInt16.toNat_ofNat_of_lt' (show _ < 2 ^ 16 by omega)
    rw [if_neg hsmall, List.cons_append, List.singleton_append, lossy_pair]
    · -- the pair stands for the character it was made from
      unfold pair
      rw [hu, hv, show 0x10000 + (0xD800 + (c.toNat - 0x10000) / 0x400 - 0xD800) * 0x400
        + (0xDC00 + (c.toNat - 0x10000) % 0x400 - 0xDC00) = c.toNat by omega, Char.ofNat_toNat]
    · rw [isLead_iff, hu]
      omega
    · rw [isTrail_iff, hv]
      omega

/-- Well-formed text is read as it is. -/
theorem lossy_encode (cs : List Char) : lossy (encode cs) = cs := by
  induction cs with
  | nil => rfl
  | cons c cs ih =>
    show lossy (encodeChar c ++ encode cs) = c :: cs
    rw [lossy_encodeChar, ih]

end Utf16
