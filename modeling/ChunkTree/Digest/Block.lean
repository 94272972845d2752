import ChunkTree.Bytes

/-!
# Blocks of a message

The digests here work on a message in blocks of fixed width.  The last block is filled up by a bit
set, zeros, and the length of the message in bits.
-/

namespace ChunkTree.Digest

/-- The order in which the bytes of a word are written. -/
inductive ByteOrder where
  | lowFirst
  | highFirst

/-- A number in `width` bytes. -/
def ByteOrder.write (order : ByteOrder) (width number : Nat) : List UInt8 :=
  match order with
  | .lowFirst => Bytes.lowDigits width number
  | .highFirst => (Bytes.lowDigits width number).reverse

/-- How many zeros stand between the bit set after the message and the length. -/
def zeroCount (block field size : Nat) : Nat := (block - (size + 1 + field) % block) % block

/-- The message filled up to whole blocks, its length written in `field` bytes. -/
def padded (order : ByteOrder) (block field : Nat) (message : Bytes) : Bytes :=
  message ++ #[0x80] ++ Array.replicate (zeroCount block field message.size) 0
    ++ (order.write field (8 * message.size)).toArray

/-- The four bytes from `start` on as a word, the highest first. -/
def word32HighFirst (bytes : Bytes) (start : Nat) : UInt32 :=
  ((bytes.getD start 0).toUInt32 <<< 24) ||| ((bytes.getD (start + 1) 0).toUInt32 <<< 16)
    ||| ((bytes.getD (start + 2) 0).toUInt32 <<< 8) ||| (bytes.getD (start + 3) 0).toUInt32

/-- The four bytes from `start` on as a word, the lowest first. -/
def word32LowFirst (bytes : Bytes) (start : Nat) : UInt32 :=
  (bytes.getD start 0).toUInt32 ||| ((bytes.getD (start + 1) 0).toUInt32 <<< 8)
    ||| ((bytes.getD (start + 2) 0).toUInt32 <<< 16) ||| ((bytes.getD (start + 3) 0).toUInt32 <<< 24)

/-- The eight bytes from `start` on as a word, the highest first. -/
def word64HighFirst (bytes : Bytes) (start : Nat) : UInt64 :=
  ((word32HighFirst bytes start).toUInt64 <<< 32) ||| (word32HighFirst bytes (start + 4)).toUInt64

/-- A word turned left by `count` bits, for a count from 1 to 31. -/
def rotateLeft32 (word count : UInt32) : UInt32 := (word <<< count) ||| (word >>> (32 - count))

/-- A word turned right by `count` bits, for a count from 1 to 31. -/
def rotateRight32 (word count : UInt32) : UInt32 := (word >>> count) ||| (word <<< (32 - count))

/-- A word turned right by `count` bits, for a count from 1 to 63. -/
def rotateRight64 (word count : UInt64) : UInt64 := (word >>> count) ||| (word <<< (64 - count))

/-- Runs a compression over the blocks of a padded message, by the place where each starts. -/
def overBlocks {α : Type} (block : Nat) (message : Bytes) (compress : α → Nat → α) (start : α) : α :=
  Nat.fold (message.size / block) (fun index _ register => compress register (block * index)) start

@[simp]
theorem length_write (order : ByteOrder) (width number : Nat) :
    (order.write width number).length = width := by
  cases order <;> simp [ByteOrder.write]

/-- Padding ends on a block. -/
theorem size_padded_mod (order : ByteOrder) (block field : Nat) (positive : 0 < block)
    (message : Bytes) : (padded order block field message).size % block = 0 := by
  have size : (padded order block field message).size
      = message.size + 1 + field + zeroCount block field message.size := by
    simp only [padded, Array.size_append, Array.size_replicate, List.size_toArray, length_write,
      List.length_cons, List.length_nil]
    omega
  have bound := Nat.mod_lt (message.size + 1 + field) positive
  rw [size, zeroCount, Nat.add_mod, Nat.mod_mod]
  by_cases full : (message.size + 1 + field) % block = 0
  · simp [full]
  · rw [Nat.mod_eq_of_lt (show block - (message.size + 1 + field) % block < block by omega),
      Nat.add_sub_cancel' (Nat.le_of_lt bound), Nat.mod_self]

end ChunkTree.Digest
