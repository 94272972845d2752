/-!
# Bytes

Runs of bytes, the ways to cut and overlay them, and numbers written in them by their base-256
digits.  Reading the digits of a number gives the number back, up to the number of digits written.
-/

namespace ChunkTree

/-- A run of bytes. -/
abbrev Bytes := Array UInt8

/-- Sizes and positions fit in words of 64 bits; this is the first number that does not. -/
def wordLimit : Nat := 18446744073709551616

namespace Bytes

/-- The bytes of a text in UTF-8. -/
def ofText (text : String) : Bytes := text.toUTF8.data

/-- At most `count` bytes, from `start` on. -/
def slice (bytes : Bytes) (start count : Nat) : Bytes := bytes.extract start (start + count)

/-- The buffer with `bytes` laid over it from `offset` on.  The buffer grows as far as needed, and a
gap between its old end and the offset is filled with zeros. -/
def overlay (buffer bytes : Bytes) (offset : Nat) : Bytes :=
  buffer.extract 0 offset ++ Array.replicate (offset - buffer.size) 0 ++ bytes
    ++ buffer.extract (offset + bytes.size) buffer.size

/-- Runs of bytes put one after the other. -/
def concat (parts : List Bytes) : Bytes := parts.foldl (· ++ ·) #[]

/-- The `width` lowest base-256 digits of a number, the lowest first. -/
def lowDigits : Nat → Nat → List UInt8
  | 0, _ => []
  | width + 1, number => UInt8.ofNat number :: lowDigits width (number / 256)

/-- The number with these base-256 digits, the lowest first. -/
def ofLowDigits : List UInt8 → Nat
  | [] => 0
  | digit :: rest => digit.toNat + 256 * ofLowDigits rest

/-- A word as eight bytes, the lowest first. -/
def ofWord (word : UInt64) : Bytes := (lowDigits 8 word.toNat).toArray

/-- The word whose bytes are these, the lowest first. -/
def toWord (bytes : Bytes) : UInt64 := UInt64.ofNat (ofLowDigits bytes.toList)

@[simp]
theorem length_lowDigits (width number : Nat) : (lowDigits width number).length = width := by
  induction width generalizing number with
  | zero => rfl
  | succ width ih => simp [lowDigits, ih]

/-- Reading the lowest digits gives the number back up to the digits left out. -/
theorem ofLowDigits_lowDigits (width number : Nat) :
    ofLowDigits (lowDigits width number) = number % Nat.pow 256 width := by
  induction width generalizing number with
  | zero => simp only [lowDigits, ofLowDigits, Nat.pow, Nat.mod_one]
  | succ width ih =>
    have digit : (UInt8.ofNat number).toNat = number % 256 := by simp
    have power : Nat.pow 256 (width + 1) = 256 * Nat.pow 256 width := Nat.mul_comm ..
    rw [lowDigits, ofLowDigits, ih, digit, power, Nat.mod_mul]

@[simp]
theorem size_ofWord (word : UInt64) : (ofWord word).size = 8 := by
  simp [ofWord]

@[simp]
theorem toWord_ofWord (word : UInt64) : toWord (ofWord word) = word := by
  have small : word.toNat % Nat.pow 256 8 = word.toNat :=
    Nat.mod_eq_of_lt (Nat.lt_of_lt_of_le word.toNat_lt (by decide))
  rw [toWord, ofWord, List.toList_toArray, ofLowDigits_lowDigits, small, UInt64.ofNat_toNat]

@[simp]
theorem size_overlay (buffer bytes : Bytes) (offset : Nat) :
    (overlay buffer bytes offset).size = max buffer.size (offset + bytes.size) := by
  simp only [overlay, Array.size_append, Array.size_extract, Array.size_replicate]
  omega

end Bytes

end ChunkTree
