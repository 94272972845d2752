import ChunkTree.Digest.Block

/-!
# MD5

A digest of 16 bytes over words of 32 bits, written with the lowest byte first.
-/

namespace ChunkTree.Digest.Md5

/-- The four words that a message is worked into. -/
structure Register where
  a : UInt32
  b : UInt32
  c : UInt32
  d : UInt32

/-- The constants of the rounds: bits of the sines of 1 to 64. -/
def roundConstants : Array UInt32 := #[
  0xd76aa478, 0xe8c7b756, 0x242070db, 0xc1bdceee, 0xf57c0faf, 0x4787c62a, 0xa8304613, 0xfd469501,
  0x698098d8, 0x8b44f7af, 0xffff5bb1, 0x895cd7be, 0x6b901122, 0xfd987193, 0xa679438e, 0x49b40821,
  0xf61e2562, 0xc040b340, 0x265e5a51, 0xe9b6c7aa, 0xd62f105d, 0x02441453, 0xd8a1e681, 0xe7d3fbc8,
  0x21e1cde6, 0xc33707d6, 0xf4d50d87, 0x455a14ed, 0xa9e3e905, 0xfcefa3f8, 0x676f02d9, 0x8d2a4c8a,
  0xfffa3942, 0x8771f681, 0x6d9d6122, 0xfde5380c, 0xa4beea44, 0x4bdecfa9, 0xf6bb4b60, 0xbebfbc70,
  0x289b7ec6, 0xeaa127fa, 0xd4ef3085, 0x04881d05, 0xd9d4d039, 0xe6db99e5, 0x1fa27cf8, 0xc4ac5665,
  0xf4292244, 0x432aff97, 0xab9423a7, 0xfc93a039, 0x655b59c3, 0x8f0ccc92, 0xffeff47d, 0x85845dd1,
  0x6fa87e4f, 0xfe2ce6e0, 0xa3014314, 0x4e0811a1, 0xf7537e82, 0xbd3af235, 0x2ad7d2bb, 0xeb86d391]

/-- By how many bits each round turns, in four groups of sixteen rounds. -/
def shifts : Array UInt32 := #[
  7, 12, 17, 22, 5, 9, 14, 20, 4, 11, 16, 23, 6, 10, 15, 21]

/-- The mixing function of a round and the word of the block that it takes. -/
def mix (r : Register) (index : Nat) : UInt32 × Nat :=
  if index < 16 then ((r.b &&& r.c) ||| (~~~ r.b &&& r.d), index)
  else if index < 32 then ((r.d &&& r.b) ||| (~~~ r.d &&& r.c), (5 * index + 1) % 16)
  else if index < 48 then (r.b ^^^ r.c ^^^ r.d, (3 * index + 5) % 16)
  else (r.c ^^^ (r.b ||| ~~~ r.d), (7 * index) % 16)

/-- One round on the block at `start`. -/
def round (message : Bytes) (start : Nat) (r : Register) (index : Nat) : Register :=
  let (mixed, place) := mix r index
  let sum := r.a + mixed + roundConstants.getD index 0 + word32LowFirst message (start + 4 * place)
  let turned := rotateLeft32 sum (shifts.getD (4 * (index / 16) + index % 4) 0)
  { a := r.d, b := r.b + turned, c := r.b, d := r.c }

/-- Works the block at `start` into the register. -/
def compress (message : Bytes) (before : Register) (start : Nat) : Register :=
  let after := Nat.fold 64 (fun index _ r => round message start r index) before
  { a := before.a + after.a, b := before.b + after.b, c := before.c + after.c, d := before.d + after.d }

/-- The first register. -/
def start : Register :=
  { a := 0x67452301, b := 0xefcdab89, c := 0x98badcfe, d := 0x10325476 }

/-- The words of a register, each with its lowest byte first. -/
def Register.bytes (r : Register) : List UInt8 :=
  [r.a, r.b, r.c, r.d].flatMap fun word => ByteOrder.lowFirst.write 4 word.toNat

/-- The digest of 16 bytes. -/
def md5 (message : Bytes) : Bytes :=
  let message := padded .lowFirst 64 8 message
  (overBlocks 64 message (compress message) start).bytes.toArray

@[simp]
theorem size_md5 (message : Bytes) : (md5 message).size = 16 := by
  simp [md5, Register.bytes]

end ChunkTree.Digest.Md5
