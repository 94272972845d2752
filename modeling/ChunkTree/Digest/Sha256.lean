import ChunkTree.Digest.Block

/-!
# SHA-256 and SHA-224

The members of the SHA-2 family with words of 32 bits.
-/

namespace ChunkTree.Digest.Sha256

/-- The eight words that a message is worked into. -/
structure Register where
  a : UInt32
  b : UInt32
  c : UInt32
  d : UInt32
  e : UInt32
  f : UInt32
  g : UInt32
  h : UInt32

/-- The constants of the rounds: the first bits after the point of the cube roots of the first
64 primes. -/
def roundConstants : Array UInt32 := #[
  0x428a2f98, 0x71374491, 0xb5c0fbcf, 0xe9b5dba5, 0x3956c25b, 0x59f111f1, 0x923f82a4, 0xab1c5ed5,
  0xd807aa98, 0x12835b01, 0x243185be, 0x550c7dc3, 0x72be5d74, 0x80deb1fe, 0x9bdc06a7, 0xc19bf174,
  0xe49b69c1, 0xefbe4786, 0x0fc19dc6, 0x240ca1cc, 0x2de92c6f, 0x4a7484aa, 0x5cb0a9dc, 0x76f988da,
  0x983e5152, 0xa831c66d, 0xb00327c8, 0xbf597fc7, 0xc6e00bf3, 0xd5a79147, 0x06ca6351, 0x14292967,
  0x27b70a85, 0x2e1b2138, 0x4d2c6dfc, 0x53380d13, 0x650a7354, 0x766a0abb, 0x81c2c92e, 0x92722c85,
  0xa2bfe8a1, 0xa81a664b, 0xc24b8b70, 0xc76c51a3, 0xd192e819, 0xd6990624, 0xf40e3585, 0x106aa070,
  0x19a4c116, 0x1e376c08, 0x2748774c, 0x34b0bcb5, 0x391c0cb3, 0x4ed8aa4a, 0x5b9cca4f, 0x682e6ff3,
  0x748f82ee, 0x78a5636f, 0x84c87814, 0x8cc70208, 0x90befffa, 0xa4506ceb, 0xbef9a3f7, 0xc67178f2]

/-- The words of the rounds: those of the block, then words mixed from earlier ones. -/
def schedule (message : Bytes) (start : Nat) : Array UInt32 :=
  let block := Array.ofFn fun index : Fin 16 => word32HighFirst message (start + 4 * index.val)
  Nat.fold 48 (fun index _ words =>
    let old := words.getD (index + 1) 0
    let late := words.getD (index + 14) 0
    let low := rotateRight32 old 7 ^^^ rotateRight32 old 18 ^^^ (old >>> 3)
    let high := rotateRight32 late 17 ^^^ rotateRight32 late 19 ^^^ (late >>> 10)
    words.push (words.getD index 0 + low + words.getD (index + 9) 0 + high)) block

/-- One round with its constant and word added up. -/
def round (r : Register) (input : UInt32) : Register :=
  let high := rotateRight32 r.e 6 ^^^ rotateRight32 r.e 11 ^^^ rotateRight32 r.e 25
  let choice := (r.e &&& r.f) ^^^ (~~~ r.e &&& r.g)
  let first := r.h + high + choice + input
  let low := rotateRight32 r.a 2 ^^^ rotateRight32 r.a 13 ^^^ rotateRight32 r.a 22
  let majority := (r.a &&& r.b) ^^^ (r.a &&& r.c) ^^^ (r.b &&& r.c)
  { a := first + low + majority, b := r.a, c := r.b, d := r.c, e := r.d + first, f := r.e, g := r.f,
    h := r.g }

/-- Works the block at `start` into the register. -/
def compress (message : Bytes) (before : Register) (start : Nat) : Register :=
  let words := schedule message start
  let after := Nat.fold 64
    (fun index _ r => round r (roundConstants.getD index 0 + words.getD index 0)) before
  { a := before.a + after.a, b := before.b + after.b, c := before.c + after.c,
    d := before.d + after.d, e := before.e + after.e, f := before.f + after.f,
    g := before.g + after.g, h := before.h + after.h }

/-- The register after a whole message. -/
def absorb (start : Register) (message : Bytes) : Register :=
  let message := padded .highFirst 64 8 message
  overBlocks 64 message (compress message) start

/-- The words of a register, each with its highest byte first. -/
def Register.bytes (r : Register) : List UInt8 :=
  [r.a, r.b, r.c, r.d, r.e, r.f, r.g, r.h].flatMap fun word =>
    ByteOrder.highFirst.write 4 word.toNat

@[simp]
theorem length_bytes (r : Register) : r.bytes.length = 32 := by
  simp [Register.bytes]

/-- The first register of the 32-byte digest: bits of the square roots of the first eight primes. -/
def sha256Start : Register :=
  { a := 0x6a09e667, b := 0xbb67ae85, c := 0x3c6ef372, d := 0xa54ff53a,
    e := 0x510e527f, f := 0x9b05688c, g := 0x1f83d9ab, h := 0x5be0cd19 }

/-- The digest of 32 bytes. -/
def sha256 (message : Bytes) : Bytes := ((absorb sha256Start message).bytes.take 32).toArray

@[simp]
theorem size_sha256 (message : Bytes) : (sha256 message).size = 32 := by
  simp [sha256]

/-- The first register of the 28-byte digest. -/
def sha224Start : Register :=
  { a := 0xc1059ed8, b := 0x367cd507, c := 0x3070dd17, d := 0xf70e5939,
    e := 0xffc00b31, f := 0x68581511, g := 0x64f98fa7, h := 0xbefa4fa4 }

/-- The digest of 28 bytes, which leaves out the last word. -/
def sha224 (message : Bytes) : Bytes := ((absorb sha224Start message).bytes.take 28).toArray

@[simp]
theorem size_sha224 (message : Bytes) : (sha224 message).size = 28 := by
  simp [sha224]

end ChunkTree.Digest.Sha256
