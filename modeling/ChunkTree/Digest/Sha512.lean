import ChunkTree.Digest.Block

/-!
# SHA-512 and SHA-384

The members of the SHA-2 family with words of 64 bits.
-/

namespace ChunkTree.Digest.Sha512

/-- The eight words that a message is worked into. -/
structure Register where
  a : UInt64
  b : UInt64
  c : UInt64
  d : UInt64
  e : UInt64
  f : UInt64
  g : UInt64
  h : UInt64

/-- The constants of the rounds: the first bits after the point of the cube roots of the first
80 primes. -/
def roundConstants : Array UInt64 := #[
  0x428a2f98d728ae22, 0x7137449123ef65cd, 0xb5c0fbcfec4d3b2f, 0xe9b5dba58189dbbc,
  0x3956c25bf348b538, 0x59f111f1b605d019, 0x923f82a4af194f9b, 0xab1c5ed5da6d8118,
  0xd807aa98a3030242, 0x12835b0145706fbe, 0x243185be4ee4b28c, 0x550c7dc3d5ffb4e2,
  0x72be5d74f27b896f, 0x80deb1fe3b1696b1, 0x9bdc06a725c71235, 0xc19bf174cf692694,
  0xe49b69c19ef14ad2, 0xefbe4786384f25e3, 0x0fc19dc68b8cd5b5, 0x240ca1cc77ac9c65,
  0x2de92c6f592b0275, 0x4a7484aa6ea6e483, 0x5cb0a9dcbd41fbd4, 0x76f988da831153b5,
  0x983e5152ee66dfab, 0xa831c66d2db43210, 0xb00327c898fb213f, 0xbf597fc7beef0ee4,
  0xc6e00bf33da88fc2, 0xd5a79147930aa725, 0x06ca6351e003826f, 0x142929670a0e6e70,
  0x27b70a8546d22ffc, 0x2e1b21385c26c926, 0x4d2c6dfc5ac42aed, 0x53380d139d95b3df,
  0x650a73548baf63de, 0x766a0abb3c77b2a8, 0x81c2c92e47edaee6, 0x92722c851482353b,
  0xa2bfe8a14cf10364, 0xa81a664bbc423001, 0xc24b8b70d0f89791, 0xc76c51a30654be30,
  0xd192e819d6ef5218, 0xd69906245565a910, 0xf40e35855771202a, 0x106aa07032bbd1b8,
  0x19a4c116b8d2d0c8, 0x1e376c085141ab53, 0x2748774cdf8eeb99, 0x34b0bcb5e19b48a8,
  0x391c0cb3c5c95a63, 0x4ed8aa4ae3418acb, 0x5b9cca4f7763e373, 0x682e6ff3d6b2b8a3,
  0x748f82ee5defb2fc, 0x78a5636f43172f60, 0x84c87814a1f0ab72, 0x8cc702081a6439ec,
  0x90befffa23631e28, 0xa4506cebde82bde9, 0xbef9a3f7b2c67915, 0xc67178f2e372532b,
  0xca273eceea26619c, 0xd186b8c721c0c207, 0xeada7dd6cde0eb1e, 0xf57d4f7fee6ed178,
  0x06f067aa72176fba, 0x0a637dc5a2c898a6, 0x113f9804bef90dae, 0x1b710b35131c471b,
  0x28db77f523047d84, 0x32caab7b40c72493, 0x3c9ebe0a15c9bebc, 0x431d67c49c100d4c,
  0x4cc5d4becb3e42b6, 0x597f299cfc657e2a, 0x5fcb6fab3ad6faec, 0x6c44198c4a475817]

/-- The words of the rounds: those of the block, then words mixed from earlier ones. -/
def schedule (message : Bytes) (start : Nat) : Array UInt64 :=
  let block := Array.ofFn fun index : Fin 16 => word64HighFirst message (start + 8 * index.val)
  Nat.fold 64 (fun index _ words =>
    let old := words.getD (index + 1) 0
    let late := words.getD (index + 14) 0
    let low := rotateRight64 old 1 ^^^ rotateRight64 old 8 ^^^ (old >>> 7)
    let high := rotateRight64 late 19 ^^^ rotateRight64 late 61 ^^^ (late >>> 6)
    words.push (words.getD index 0 + low + words.getD (index + 9) 0 + high)) block

/-- One round with its constant and word added up. -/
def round (r : Register) (input : UInt64) : Register :=
  let high := rotateRight64 r.e 14 ^^^ rotateRight64 r.e 18 ^^^ rotateRight64 r.e 41
  let choice := (r.e &&& r.f) ^^^ (~~~ r.e &&& r.g)
  let first := r.h + high + choice + input
  let low := rotateRight64 r.a 28 ^^^ rotateRight64 r.a 34 ^^^ rotateRight64 r.a 39
  let majority := (r.a &&& r.b) ^^^ (r.a &&& r.c) ^^^ (r.b &&& r.c)
  { a := first + low + majority, b := r.a, c := r.b, d := r.c, e := r.d + first, f := r.e, g := r.f,
    h := r.g }

/-- Works the block at `start` into the register. -/
def compress (message : Bytes) (before : Register) (start : Nat) : Register :=
  let words := schedule message start
  let after := Nat.fold 80
    (fun index _ r => round r (roundConstants.getD index 0 + words.getD index 0)) before
  { a := before.a + after.a, b := before.b + after.b, c := before.c + after.c,
    d := before.d + after.d, e := before.e + after.e, f := before.f + after.f,
    g := before.g + after.g, h := before.h + after.h }

/-- The register after a whole message. -/
def absorb (start : Register) (message : Bytes) : Register :=
  let message := padded .highFirst 128 16 message
  overBlocks 128 message (compress message) start

/-- The words of a register, each with its highest byte first. -/
def Register.bytes (r : Register) : List UInt8 :=
  [r.a, r.b, r.c, r.d, r.e, r.f, r.g, r.h].flatMap fun word =>
    ByteOrder.highFirst.write 8 word.toNat

@[simp]
theorem length_bytes (r : Register) : r.bytes.length = 64 := by
  simp [Register.bytes]

/-- The first register of the 64-byte digest: bits of the square roots of the first eight primes. -/
def sha512Start : Register :=
  { a := 0x6a09e667f3bcc908, b := 0xbb67ae8584caa73b,
    c := 0x3c6ef372fe94f82b, d := 0xa54ff53a5f1d36f1,
    e := 0x510e527fade682d1, f := 0x9b05688c2b3e6c1f,
    g := 0x1f83d9abfb41bd6b, h := 0x5be0cd19137e2179 }

/-- The digest of 64 bytes. -/
def sha512 (message : Bytes) : Bytes := ((absorb sha512Start message).bytes.take 64).toArray

@[simp]
theorem size_sha512 (message : Bytes) : (sha512 message).size = 64 := by
  simp [sha512]

/-- The first register of the 48-byte digest: bits of the square roots of the next eight primes. -/
def sha384Start : Register :=
  { a := 0xcbbb9d5dc1059ed8, b := 0x629a292a367cd507,
    c := 0x9159015a3070dd17, d := 0x152fecd8f70e5939,
    e := 0x67332667ffc00b31, f := 0x8eb44a8768581511,
    g := 0xdb0c2e0d64f98fa7, h := 0x47b5481dbefa4fa4 }

/-- The digest of 48 bytes, which leaves out the last two words. -/
def sha384 (message : Bytes) : Bytes := ((absorb sha384Start message).bytes.take 48).toArray

@[simp]
theorem size_sha384 (message : Bytes) : (sha384 message).size = 48 := by
  simp [sha384]

end ChunkTree.Digest.Sha512
