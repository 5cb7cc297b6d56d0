import Mathlib.Algebra.Group.Nat.Defs
import Netfilum.Lib.Utf8

namespace Postcard

/-!
# A binary format of varints and length prefixes

The `postcard` format: little-endian base-128 integers, zigzag for signed ones, a length
before every string and sequence, an index before every enumeration variant, and nothing
between the fields of a record.

* `Codec α` — how values of `α` are written and read back.  The round trip is a field, so
  a codec that loses something cannot be built.
* `u32`, `u64`, `i64`, `bool`, `byte`, `string`, `option`, `seq`, `prod`, `map` and
  `enum` are the building blocks; a format is put together from them without any proof
  about bytes.
* `Codec.Within` — the longest that a value can be, for each building block that has a bound.

A decoder reads from the front of the input and leaves the rest.
-/

/-- The errors of reading, with the text they display. -/
inductive Error where
  | unexpectedEnd
  | badVarint
  | badBool
  | badUtf8
  | badOption
  | custom
  deriving DecidableEq, Repr

def Error.display : Error → String
  | unexpectedEnd => "Hit the end of buffer, expected more data"
  | badVarint     =>
    "Found a varint that didn't terminate. Is the usize too big for this platform?"
  | badBool       => "Found a bool that wasn't 0 or 1"
  | badUtf8       => "Tried to parse invalid utf-8"
  | badOption     => "Found an Option discriminant that wasn't 0 or 1"
  | custom        => "Serde Deserialization Error"

/-- A reader of the front of the input. -/
abbrev Decoder (α : Type) := StateT (List UInt8) (Except Error) α

variable {α β γ : Type}

/-- Reading in sequence: what the first step leaves, the next one reads. -/
theorem run_bind {x : Decoder α} {f : α → Decoder β} {s s' : List UInt8} {a : α}
    (h : x s = .ok (a, s')) : (x >>= f) s = f a s' := by
  show (x s >>= fun p => f p.1 p.2) = _
  rw [h]
  rfl

/-- A function of what is read, read from the same bytes. -/
theorem run_map {x : Decoder α} {f : α → β} {s s' : List UInt8} {a : α}
    (h : x s = .ok (a, s')) : (f <$> x) s = .ok (f a, s') := by
  show (x s >>= fun p => pure (f p.1, p.2)) = _
  rw [h]
  rfl

/-- Two reads succeed together where the second goes on behind the first. -/
theorem bind_eq_ok {x : Decoder α} {f : α → Decoder β} {s s'' : List UInt8} {b : β} :
    (x >>= f) s = .ok (b, s'') ↔ ∃ a s', x s = .ok (a, s') ∧ f a s' = .ok (b, s'') := by
  show (x s >>= fun p => f p.1 p.2) = _ ↔ _
  cases hx : x s with
  | error e => simp [bind, Except.bind]
  | ok p =>
    obtain ⟨a, s'⟩ := p
    refine ⟨fun h => ⟨a, s', rfl, h⟩, ?_⟩
    rintro ⟨_, _, ⟨⟩, h⟩
    exact h

/-- A function of what is read is read where this is. -/
theorem map_eq_ok {x : Decoder α} {f : α → β} {s s' : List UInt8} {b : β} :
    (f <$> x) s = .ok (b, s') ↔ ∃ a, x s = .ok (a, s') ∧ f a = b := by
  show (x s >>= fun p => pure (f p.1, p.2)) = _ ↔ _
  cases hx : x s with
  | error e => simp [bind, Except.bind]
  | ok p =>
    obtain ⟨a, s''⟩ := p
    refine ⟨?_, ?_⟩
    · rintro ⟨⟩
      exact ⟨a, rfl, rfl⟩
    · rintro ⟨_, ⟨⟩, rfl⟩
      rfl

/-- Returning a value reads nothing. -/
@[simp] theorem run_pure (a : α) (s : List UInt8) : (pure a : Decoder α) s = .ok (a, s) := rfl

/-! ### Bytes and varints -/

/-- Read one byte. -/
def pop : Decoder UInt8
  | []     => .error .unexpectedEnd
  | b :: s => .ok (b, s)

/-- The first byte is taken. -/
@[simp] theorem pop_cons (b : UInt8) (s : List UInt8) : pop (b :: s) = .ok (b, s) := rfl

/-- Read `n` bytes. -/
def popN (n : Nat) : Decoder (List UInt8) := fun s =>
  if s.length < n then .error .unexpectedEnd else .ok (s.take n, s.drop n)

/-- As many bytes are taken as are asked for. -/
theorem popN_append (bytes rest : List UInt8) :
    popN bytes.length (bytes ++ rest) = .ok (bytes, rest) := by
  unfold popN
  rw [if_neg (by simp), List.take_left, List.drop_left]

/-- Write `n` in groups of seven bits, lowest first, in at most `k` bytes; every byte but
    the last has its high bit set. -/
def putVarint : Nat → Nat → List UInt8
  | 0, _     => []
  | k + 1, n =>
    if n < 128 then [UInt8.ofNat n] else UInt8.ofNat (n % 128 + 128) :: putVarint k (n / 128)

/-- Read a varint of at most `k` bytes; a `k`-th byte may be at most `last`. -/
def takeVarint (last : Nat) : Nat → Decoder Nat
  | 0     => throw .badVarint
  | k + 1 => do
    let b ← pop
    if b.toNat < 128 then
      if k = 0 ∧ last < b.toNat then throw .badVarint
      return b.toNat
    else
      let high ← takeVarint last k
      return b.toNat - 128 + 128 * high

/-- A number is written in one byte at least. -/
theorem putVarint_ne_nil (k n : Nat) : putVarint (k + 1) n ≠ [] := by
  unfold putVarint
  split <;> simp

/-- Reading a byte below 128, which ends the number. -/
theorem takeVarint_last (last k : Nat) {n : Nat} (hn : n < 128) (rest : List UInt8) :
    takeVarint last (k + 1) (UInt8.ofNat n :: rest)
      = if k = 0 ∧ last < n then .error .badVarint else .ok (n, rest) := by
  have hb : (UInt8.ofNat n).toNat = n := by
    rw [UInt8.toNat_ofNat']
    omega
  rw [takeVarint, run_bind (pop_cons _ _), hb, if_pos hn]
  split <;> rfl

/-- Reading a byte with its high bit set: the seven lowest bits, and more to come. -/
theorem takeVarint_more (last k n : Nat) (s : List UInt8) :
    takeVarint last (k + 1) (UInt8.ofNat (n % 128 + 128) :: s)
      = ((fun high => n % 128 + 128 * high) <$> takeVarint last k) s := by
  have hb : (UInt8.ofNat (n % 128 + 128)).toNat = n % 128 + 128 := by
    rw [UInt8.toNat_ofNat']
    omega
  rw [takeVarint, run_bind (pop_cons _ _), hb, if_neg (by omega), Nat.add_sub_cancel]
  rfl

/-- What fits in `k` full groups and a last byte up to `last` survives. -/
theorem takeVarint_putVarint (last : Nat) (hlast : last < 128) (k n : Nat) (rest : List UInt8)
    (h : n < 128 ^ k * (last + 1)) :
    takeVarint last (k + 1) (putVarint (k + 1) n ++ rest) = .ok (n, rest) := by
  induction k generalizing n with
  | zero =>
    have hn : n < 128 := by omega
    rw [putVarint, if_pos hn, List.singleton_append, takeVarint_last last 0 hn,
      if_neg (by omega)]
  | succ k ih =>
    rw [putVarint]
    by_cases hn : n < 128
    · rw [if_pos hn, List.singleton_append, takeVarint_last last (k + 1) hn, if_neg (by omega)]
    · -- one group is written, and the rest fits in the bytes that are left
      have hdiv : n / 128 < 128 ^ k * (last + 1) := by
        rw [Nat.div_lt_iff_lt_mul (by omega)]
        calc n < 128 ^ (k + 1) * (last + 1) := h
          _ = 128 ^ k * (last + 1) * 128 := by rw [Nat.pow_succ]; ac_rfl
      rw [if_neg hn, List.cons_append, takeVarint_more, run_map (ih (n / 128) hdiv),
        Nat.mod_add_div]

/-- However few bytes a reader allows, it reads the number that was written or none. -/
theorem eq_of_takeVarint {last k j n m : Nat} {rest rest' : List UInt8} (hkj : k ≤ j)
    (h : takeVarint last k (putVarint j n ++ rest) = .ok (m, rest')) : m = n ∧ rest' = rest := by
  induction k generalizing j n m rest' with
  | zero => cases h
  | succ k ih =>
    obtain ⟨j, rfl⟩ : ∃ j', j = j' + 1 := ⟨j - 1, by omega⟩
    rw [putVarint] at h
    by_cases hn : n < 128
    · rw [if_pos hn, List.singleton_append, takeVarint_last last k hn] at h
      by_cases hlast : k = 0 ∧ last < n
      · rw [if_pos hlast] at h
        cases h
      · rw [if_neg hlast] at h
        cases h
        exact ⟨rfl, rfl⟩
    · rw [if_neg hn, List.cons_append, takeVarint_more] at h
      obtain ⟨high, hhigh, rfl⟩ := map_eq_ok.mp h
      obtain ⟨rfl, rfl⟩ := ih (Nat.le_of_succ_le_succ hkj) hhigh
      exact ⟨Nat.mod_add_div n 128, rfl⟩

/-! ### Codecs -/

/-- A format for the values of `α`: every value is written in at least one byte, and what
    was written is read back, whatever follows it. -/
structure Codec (α : Type) where
  put      : α → List UInt8
  take     : Decoder α
  put_ne   : ∀ a, put a ≠ []
  take_put : ∀ a rest, (put a).length < 2 ^ 64 → take (put a ++ rest) = .ok (a, rest)

namespace Codec

/-- A value of a type with a retraction to `α` is written as its image. -/
def map (c : Codec α) (f : α → β) (g : β → α) (hfg : ∀ b, f (g b) = b) : Codec β where
  put b := c.put (g b)
  take := f <$> c.take
  put_ne b := c.put_ne (g b)
  take_put b rest h := by
    rw [run_map (c.take_put (g b) rest h), hfg]

/-- Two values, one after the other. -/
def prod (c : Codec α) (c' : Codec β) : Codec (α × β) where
  put p := c.put p.1 ++ c'.put p.2
  take := do
    let a ← c.take
    let b ← c'.take
    return (a, b)
  put_ne p := by simp [c.put_ne]
  take_put p rest h := by
    rw [List.length_append] at h
    rw [List.append_assoc, run_bind (c.take_put p.1 _ (by omega)),
      run_bind (c'.take_put p.2 _ (by omega))]
    rfl

/-- One byte as it is. -/
def byte : Codec UInt8 where
  put b := [b]
  take := pop
  put_ne _ := by simp
  take_put b rest _ := rfl

/-- `u32`: at most five bytes, the last one at most 15. -/
def u32 : Codec UInt32 where
  put n := putVarint 5 n.toNat
  take := UInt32.ofNat <$> takeVarint 15 5
  put_ne n := putVarint_ne_nil 4 _
  take_put n rest _ := by
    have hn : n.toNat < 128 ^ 4 * (15 + 1) := n.toNat_lt
    rw [run_map (takeVarint_putVarint 15 (by omega) 4 n.toNat rest hn), UInt32.ofNat_toNat]

/-- `u64`: at most ten bytes, the last one at most 1. -/
def u64 : Codec UInt64 where
  put n := putVarint 10 n.toNat
  take := UInt64.ofNat <$> takeVarint 1 10
  put_ne n := putVarint_ne_nil 9 _
  take_put n rest _ := by
    have hn : n.toNat < 128 ^ 9 * (1 + 1) := n.toNat_lt
    rw [run_map (takeVarint_putVarint 1 (by omega) 9 n.toNat rest hn), UInt64.ofNat_toNat]

/-- The unsigned number a signed one is written as: non-negative ones even, negative ones
    odd. -/
def zigzag (n : Int64) : UInt64 :=
  UInt64.ofNat (if 0 ≤ n.toInt then 2 * n.toInt.toNat else 2 * (-n.toInt).toNat - 1)

@[inherit_doc zigzag]
def unzigzag (m : UInt64) : Int64 :=
  Int64.ofInt (if m.toNat % 2 = 0 then (m.toNat / 2 : Nat) else -((m.toNat / 2 + 1 : Nat) : Int))

/-- The zigzag of a signed number is undone. -/
theorem unzigzag_zigzag (n : Int64) : unzigzag (zigzag n) = n := by
  have hlo : -2 ^ 63 ≤ n.toInt := n.le_toInt
  have hhi : n.toInt < 2 ^ 63 := n.toInt_lt
  have hm : (zigzag n).toNat
      = if 0 ≤ n.toInt then 2 * n.toInt.toNat else 2 * (-n.toInt).toNat - 1 := by
    unfold zigzag
    rw [UInt64.toNat_ofNat_of_lt']
    show _ < 2 ^ 64
    split <;> omega
  -- even numbers stand for themselves halved, odd ones for the negative side
  have hval : (if (zigzag n).toNat % 2 = 0 then (((zigzag n).toNat / 2 : Nat) : Int)
      else -(((zigzag n).toNat / 2 + 1 : Nat) : Int)) = n.toInt := by
    rw [hm]
    by_cases hn : 0 ≤ n.toInt
    · rw [if_pos hn, if_pos (by omega)]; omega
    · rw [if_neg hn, if_neg (by omega)]; omega
  unfold unzigzag
  rw [hval, Int64.ofInt_toInt]

/-- `i64`: zigzag, then `u64`. -/
def i64 : Codec Int64 := u64.map unzigzag zigzag unzigzag_zigzag

/-- `usize`, on a system where it has 64 bits. -/
def length : Codec UInt64 := u64

/-- `bool`: one byte, 0 or 1. -/
def bool : Codec Bool where
  put b := [if b then 1 else 0]
  take := do
    let b ← pop
    if b = 0 then return false
    else if b = 1 then return true
    else throw .badBool
  put_ne _ := by simp
  take_put b rest _ := by cases b <;> rfl

/-- `Option`: a byte 0, or a byte 1 and the value. -/
def option (c : Codec α) : Codec (Option α) where
  put
    | none   => [0]
    | some a => 1 :: c.put a
  take := do
    let b ← pop
    if b = 0 then return none
    else if b = 1 then some <$> c.take
    else throw .badOption
  put_ne a := by cases a <;> simp
  take_put a rest h := by
    cases a with
    | none => rfl
    | some a =>
      rw [List.length_cons] at h
      rw [List.cons_append, run_bind (pop_cons _ _), if_neg (by decide), if_pos rfl,
        run_map (c.take_put a rest (by omega))]

/-- `String`: its length in bytes, then its UTF-8 bytes. -/
def string : Codec String where
  put s := length.put (UInt64.ofNat (Utf8.encode s).length) ++ Utf8.encode s
  take := do
    let n ← length.take
    -- as many bytes as announced, before they are looked at
    let bytes ← popN n.toNat
    match Utf8.decode bytes with
    | some s => return s
    | none   => throw .badUtf8
  put_ne s := by simp [length.put_ne]
  take_put s rest h := by
    rw [List.length_append] at h
    have hn : (UInt64.ofNat (Utf8.encode s).length).toNat = (Utf8.encode s).length :=
      UInt64.toNat_ofNat_of_lt' (show _ < 2 ^ 64 by omega)
    rw [List.append_assoc, run_bind (length.take_put _ _ (by omega)), hn,
      run_bind (popN_append _ _), Utf8.decode_encode]
    rfl

/-- Read `n` values. -/
def takeMany (c : Codec α) : Nat → Decoder (List α)
  | 0     => return []
  | n + 1 => do
    let a ← c.take
    let as ← takeMany c n
    return a :: as

/-- As many values are read as were written. -/
theorem takeMany_put (c : Codec α) (as : List α) (rest : List UInt8)
    (h : (as.flatMap c.put).length < 2 ^ 64) :
    takeMany c as.length (as.flatMap c.put ++ rest) = .ok (as, rest) := by
  induction as with
  | nil => rfl
  | cons a as ih =>
    rw [List.flatMap_cons, List.length_append] at h
    rw [List.length_cons, takeMany, List.flatMap_cons, List.append_assoc,
      run_bind (c.take_put a _ (by omega)), run_bind (ih (by omega))]
    rfl

/-- A sequence is at least as long in bytes as it has elements. -/
theorem length_le_flatMap (c : Codec α) (as : List α) :
    as.length ≤ (as.flatMap c.put).length := by
  induction as with
  | nil => simp
  | cons a as ih =>
    have hpos : 0 < (c.put a).length := List.length_pos_iff.mpr (c.put_ne a)
    rw [List.flatMap_cons, List.length_append, List.length_cons]
    omega

/-- `Vec`: the number of elements, then the elements. -/
def seq (c : Codec α) : Codec (List α) where
  put as := length.put (UInt64.ofNat as.length) ++ as.flatMap c.put
  take := do
    let n ← length.take
    takeMany c n.toNat
  put_ne as := by simp [length.put_ne]
  take_put as rest h := by
    rw [List.length_append] at h
    have hle := c.length_le_flatMap as
    have hn : (UInt64.ofNat as.length).toNat = as.length :=
      UInt64.toNat_ofNat_of_lt' (show _ < 2 ^ 64 by omega)
    rw [List.append_assoc, run_bind (length.take_put _ _ (by omega)), hn]
    exact c.takeMany_put as rest (by omega)

/-- An enumeration: the index of the variant as a `u32`, then its fields. -/
def enum (index : α → UInt32) (fields : α → List UInt8) (variant : UInt32 → Decoder α)
    (h : ∀ a rest, (fields a).length < 2 ^ 64 →
      variant (index a) (fields a ++ rest) = .ok (a, rest)) : Codec α where
  put a := u32.put (index a) ++ fields a
  take := u32.take >>= variant
  put_ne a := by simp [u32.put_ne]
  take_put a rest hlen := by
    rw [List.length_append] at hlen
    rw [List.append_assoc, run_bind (u32.take_put _ _ (by omega))]
    exact h a rest (by omega)

/-- `Result`: the two variants of an enumeration. -/
def result (c : Codec α) (c' : Codec β) : Codec (Except β α) :=
  enum
    (fun | .ok _ => 0 | .error _ => 1)
    (fun | .ok a => c.put a | .error b => c'.put b)
    (fun i =>
      if i = 0 then .ok <$> c.take
      else if i = 1 then .error <$> c'.take
      else throw .custom)
    (fun
      | .ok a, rest, h => run_map (c.take_put a rest h)
      | .error b, rest, h => run_map (c'.take_put b rest h))

/-! ### The size of a value -/

/-- Every value is written in at most `n` bytes. -/
def Within (c : Codec α) (n : Nat) : Prop := ∀ a, (c.put a).length ≤ n

/-- A number is written in no more bytes than are allowed for it. -/
theorem length_putVarint_le (k n : Nat) : (putVarint k n).length ≤ k := by
  induction k generalizing n with
  | zero => simp [putVarint]
  | succ k ih =>
    have htail := ih (n / 128)
    rw [putVarint]
    split
    · simp
    · rw [List.length_cons]
      omega

/-- A `u32` is written in five bytes at most. -/
theorem within_u32 : u32.Within 5 := fun n => length_putVarint_le 5 n.toNat

/-- A `u64` is written in ten bytes at most. -/
theorem within_u64 : u64.Within 10 := fun n => length_putVarint_le 10 n.toNat

/-- An `i64` is written in ten bytes at most. -/
theorem within_i64 : i64.Within 10 := fun n => within_u64 (zigzag n)

/-- A `bool` is written in one byte. -/
theorem within_bool : bool.Within 1 := fun _ => by simp [bool]

/-- An option is written in one byte more. -/
theorem Within.option {c : Codec α} {n : Nat} (h : c.Within n) : c.option.Within (n + 1) := by
  intro a
  cases a with
  | none => simp [Codec.option]
  | some a =>
    have ha := h a
    simp only [Codec.option, List.length_cons]
    omega

/-- A pair is written in as many bytes as its parts. -/
theorem Within.prod {c : Codec α} {c' : Codec β} {n n' : Nat} (h : c.Within n)
    (h' : c'.Within n') : (c.prod c').Within (n + n') := by
  intro p
  have ha := h p.1
  have hb := h' p.2
  simp only [Codec.prod, List.length_append]
  omega

/-- The first of two values takes no more than both. -/
theorem length_put_fst_le (c : Codec α) (c' : Codec β) (a : α) (b : β) :
    (c.put a).length ≤ ((c.prod c').put (a, b)).length := by
  simp only [Codec.prod, List.length_append]
  omega

/-- A codec for another type is as short. -/
theorem Within.map {c : Codec α} {n : Nat} (h : c.Within n) {f : α → β} {g : β → α}
    (hfg : ∀ b, f (g b) = b) : (c.map f g hfg).Within n := fun b => h (g b)

/-- The index of a variant takes at most five bytes. -/
theorem length_put_enum_le {index : α → UInt32} {fields : α → List UInt8}
    {variant : UInt32 → Decoder α} {h : ∀ a rest, (fields a).length < 2 ^ 64 →
      variant (index a) (fields a ++ rest) = .ok (a, rest)} (a : α) :
    ((enum index fields variant h).put a).length ≤ 5 + (fields a).length := by
  have hindex := within_u32 (index a)
  simp only [enum, List.length_append]
  omega

/-- A success is written in at most five bytes more than its value. -/
theorem length_put_ok_le (c : Codec α) (c' : Codec β) (a : α) :
    ((c.result c').put (.ok a)).length ≤ 5 + (c.put a).length := by
  unfold result
  exact length_put_enum_le _

end Codec

end Postcard
