import ChunkTree.Digest.Block

/-!
# SHA-1

A digest of 20 bytes over words of 32 bits.
-/

namespace ChunkTree.Digest.Sha1

/-- The five words that a message is worked into. -/
structure Register where
  a : UInt32
  b : UInt32
  c : UInt32
  d : UInt32
  e : UInt32

/-- The words of the rounds: those of the block, then words mixed from earlier ones. -/
def schedule (message : Bytes) (start : Nat) : Array UInt32 :=
  let block := Array.ofFn fun index : Fin 16 => word32HighFirst message (start + 4 * index.val)
  Nat.fold 64 (fun index _ words =>
    words.push (rotateLeft32 (words.getD (index + 13) 0 ^^^ words.getD (index + 8) 0
      ^^^ words.getD (index + 2) 0 ^^^ words.getD index 0) 1)) block

/-- The mixing function and the constant of a round, which change every twenty rounds. -/
def mix (r : Register) (index : Nat) : UInt32 :=
  if index < 20 then ((r.b &&& r.c) ||| (~~~ r.b &&& r.d)) + 0x5a827999
  else if index < 40 then (r.b ^^^ r.c ^^^ r.d) + 0x6ed9eba1
  else if index < 60 then ((r.b &&& r.c) ||| (r.b &&& r.d) ||| (r.c &&& r.d)) + 0x8f1bbcdc
  else (r.b ^^^ r.c ^^^ r.d) + 0xca62c1d6

/-- One round. -/
def round (r : Register) (index : Nat) (word : UInt32) : Register :=
  { a := rotateLeft32 r.a 5 + mix r index + r.e + word, b := r.a, c := rotateLeft32 r.b 30, d := r.c,
    e := r.d }

/-- Works the block at `start` into the register. -/
def compress (message : Bytes) (before : Register) (start : Nat) : Register :=
  let words := schedule message start
  let after := Nat.fold 80 (fun index _ r => round r index (words.getD index 0)) before
  { a := before.a + after.a, b := before.b + after.b, c := before.c + after.c,
    d := before.d + after.d, e := before.e + after.e }

/-- The first register. -/
def start : Register :=
  { a := 0x67452301, b := 0xefcdab89, c := 0x98badcfe, d := 0x10325476, e := 0xc3d2e1f0 }

/-- The words of a register, each with its highest byte first. -/
def Register.bytes (r : Register) : List UInt8 :=
  [r.a, r.b, r.c, r.d, r.e].flatMap fun word => ByteOrder.highFirst.write 4 word.toNat

/-- The digest of 20 bytes. -/
def sha1 (message : Bytes) : Bytes :=
  let message := padded .highFirst 64 8 message
  (overBlocks 64 message (compress message) start).bytes.toArray

@[simp]
theorem size_sha1 (message : Bytes) : (sha1 message).size = 20 := by
  simp [sha1, Register.bytes]

end ChunkTree.Digest.Sha1
