import Netfilum.Posix.Calls

namespace Posix

/-!
# A file as an array of bytes

What a regular file is for: a size, and a byte at every position below it.  The three
operations on the array are defined position by position, without the lists that the
system calls store.

* `Content.write`, `Content.resize`, `Content.read` — the operations on the array.
* `Content.toList_write`, `Content.toList_resize`, `Content.read_eq` — the lists that the
  calls store and return are those of the array.
-/

/-! ### The lists that are stored -/

namespace Fs

/-- A file that is written to reaches to the end of what is written. -/
theorem length_overwrite (old : List UInt8) (pos : Nat) (data : List UInt8) :
    (overwrite old pos data).length = max old.length (pos + data.length) := by
  simp only [overwrite, List.length_append, List.length_take, List.length_replicate,
    List.length_drop]
  omega

/-- A file that is resized has the new size. -/
theorem length_resize (old : List UInt8) (size : Nat) : (resize old size).length = size := by
  simp only [resize, List.length_append, List.length_take, List.length_replicate]
  omega

/-- Data that ends within the old bytes takes the place of as many of them. -/
theorem overwrite_of_le {old data : List UInt8} {pos : Nat} (h : pos + data.length ≤ old.length) :
    overwrite old pos data = old.take pos ++ data ++ old.drop (pos + data.length) := by
  unfold overwrite
  rw [show pos - old.length = 0 by omega, List.replicate_zero, List.append_nil]

end Fs

/-! ### The array -/

/-- An array of bytes.  Positions from `size` on are no part of it. -/
structure Content where
  size : Nat
  byte : Nat → UInt8

namespace Content

/-- The bytes of the array, in order. -/
def toList (c : Content) : List UInt8 := (List.range c.size).map c.byte

/-- The array that holds the bytes of a list. -/
def ofList (bytes : List UInt8) : Content where
  size := bytes.length
  byte i := bytes.getD i 0

/-- Put `data` at `offset`: a gap before it reads as zeros.  Writing nothing changes
    nothing. -/
def write (c : Content) (offset : Nat) (data : List UInt8) : Content :=
  if data = [] then c else
  { size := max c.size (offset + data.length)
    byte := fun i =>
      if offset ≤ i ∧ i < offset + data.length then data.getD (i - offset) 0
      else if i < c.size then c.byte i
      else 0 }

/-- Cut the array off, or extend it by zeros. -/
def resize (c : Content) (size : Nat) : Content where
  size := size
  byte i := if i < c.size then c.byte i else 0

/-- The bytes from `offset` to `offset + length`, as far as there are any. -/
def read (c : Content) (offset length : Nat) : List UInt8 :=
  (List.range' offset (min (offset + length) c.size - offset)).map c.byte

/-- The contents have as many bytes as the file. -/
@[simp] theorem length_toList (c : Content) : c.toList.length = c.size := by simp [toList]

/-- The bytes are those of the file. -/
theorem getElem_toList (c : Content) (i : Nat) (h : i < c.toList.length) :
    c.toList[i] = c.byte i := by simp [toList]

/-- A file with these contents has these contents. -/
@[simp] theorem toList_ofList (bytes : List UInt8) : (ofList bytes).toList = bytes := by
  refine List.ext_getElem (by simp [ofList]) fun i h h' => ?_
  rw [getElem_toList]
  simp [ofList, List.getElem?_eq_getElem h']

/-- Reading takes a part of the list. -/
theorem read_eq (c : Content) (offset length : Nat) :
    c.read offset length = (c.toList.drop offset).take length := by
  refine List.ext_getElem ?_ fun i h h' => ?_
  · simp only [read, List.length_map, List.length_range', List.length_take, List.length_drop,
      length_toList]
    omega
  · simp [read, getElem_toList]

/-- No more is read than was asked for. -/
theorem length_read_le (c : Content) (offset length : Nat) :
    (c.read offset length).length ≤ length := by
  rw [read_eq]
  exact List.length_take_le ..

/-- Writing overwrites the list. -/
theorem toList_write (c : Content) (offset : Nat) (data : List UInt8) :
    (c.write offset data).toList
      = if data = [] then c.toList else Fs.overwrite c.toList offset data := by
  unfold write
  split
  · rfl
  · have hgap : min offset c.size + (offset - c.size) = offset := by omega
    refine List.ext_getElem ?_ fun i h h' => ?_
    · simp only [length_toList, Fs.overwrite, List.length_append, List.length_take,
        List.length_replicate, List.length_drop]
      omega
    · rw [getElem_toList]
      simp only [length_toList] at h
      simp only [Fs.overwrite, List.getElem_append, List.getElem_take, List.getElem_replicate,
        List.getElem_drop, List.length_append, List.length_take, List.length_replicate,
        getElem_toList, length_toList, hgap]
      by_cases hbefore : i < offset
      · -- the old bytes, then the gap
        rw [if_neg (by omega), dif_pos (by omega), dif_pos hbefore]
        by_cases hold : i < c.size
        · rw [if_pos hold, dif_pos (by omega)]
        · rw [if_neg hold, dif_neg (by omega)]
      · by_cases hin : i < offset + data.length
        · rw [if_pos (by omega), dif_pos hin, dif_neg hbefore, List.getD_eq_getElem?_getD,
            List.getElem?_eq_getElem (by omega), Option.getD_some]
        · -- the old bytes behind the data
          rw [if_neg (by omega), if_pos (by omega), dif_neg hin,
            show offset + data.length + (i - (offset + data.length)) = i by omega]

/-- Resizing takes the list and zeros. -/
theorem toList_resize (c : Content) (size : Nat) :
    (c.resize size).toList = Fs.resize c.toList size := by
  refine List.ext_getElem ?_ fun i h h' => ?_
  · simp only [length_toList, resize, Fs.resize, List.length_append, List.length_take,
      List.length_replicate]
    omega
  · rw [getElem_toList]
    simp only [resize, Fs.resize, List.getElem_append, List.getElem_take, List.getElem_replicate,
      List.length_take, getElem_toList, length_toList]
    simp only [length_toList, resize] at h
    split <;> split <;> first | rfl | omega

end Content

end Posix
