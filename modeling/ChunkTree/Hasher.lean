import ChunkTree.Digest.Checksum
import ChunkTree.Digest.Md5
import ChunkTree.Digest.Sha1
import ChunkTree.Digest.Sha256
import ChunkTree.Digest.Sha512
import ChunkTree.Fault

/-!
# Hashers

A hasher turns bytes into a digest and declares the length of its digests.  Digests are found by name
among those that there are (`Hasher.among`); the standard ones have their names in any letter case.
-/

namespace ChunkTree

/-- A digest and the length it declares.  Nothing forces the two to agree: whoever uses a digest
checks its length. -/
structure Hasher where
  digest : Bytes → Bytes
  digestLength : Nat

/-- Every digest has the declared length. -/
def Hasher.Honest (hasher : Hasher) : Prop :=
  ∀ bytes, (hasher.digest bytes).size = hasher.digestLength

/-- The standard digests. -/
inductive Algorithm where
  | md5
  | sha1
  | sha224
  | sha256
  | sha384
  | sha512

namespace Algorithm

/-- The algorithm of a name.  Letter case does not matter. -/
def named? (name : String) : Option Algorithm :=
  match name.map Char.toUpper with
  | "MD5" => some md5
  | "SHA1" | "SHA-1" => some sha1
  | "SHA224" => some sha224
  | "SHA256" | "SHA-256" | "SHA2-256" => some sha256
  | "SHA384" => some sha384
  | "SHA512" | "SHA-512" => some sha512
  | _ => none

/-- The hasher of an algorithm. -/
def hasher : Algorithm → Hasher
  | md5 => ⟨Digest.Md5.md5, 16⟩
  | sha1 => ⟨Digest.Sha1.sha1, 20⟩
  | sha224 => ⟨Digest.Sha256.sha224, 28⟩
  | sha256 => ⟨Digest.Sha256.sha256, 32⟩
  | sha384 => ⟨Digest.Sha512.sha384, 48⟩
  | sha512 => ⟨Digest.Sha512.sha512, 64⟩

theorem hasher_honest (algorithm : Algorithm) : algorithm.hasher.Honest := by
  intro bytes
  cases algorithm <;> simp [hasher]

end Algorithm

/-- The digests that can be asked for by name.  A digest without a fixed length has length zero. -/
abbrev Digests := String → Option Hasher

namespace Digests

/-- What is documented of digests: they are as long as they say, and no longer than 64 bytes. -/
structure Lawful (digests : Digests) : Prop where
  honest : ∀ name hasher, digests name = some hasher → hasher.Honest
  short : ∀ name hasher, digests name = some hasher → hasher.digestLength ≤ 64

/-- The standard digests and no others. -/
def standard : Digests := fun name => (Algorithm.named? name).map Algorithm.hasher

theorem lawful_standard : standard.Lawful where
  honest := by
    intro name hasher found
    obtain ⟨algorithm, -, rfl⟩ := Option.map_eq_some_iff.mp found
    exact algorithm.hasher_honest
  short := by
    intro name hasher found
    obtain ⟨algorithm, -, rfl⟩ := Option.map_eq_some_iff.mp found
    cases algorithm <;> decide

end Digests

namespace Hasher

/-- The name of the digest used when none is given. -/
def defaultName : String := "SHA256"

/-- The hasher of a name.  The name ends at its first NUL, and a digest has to have a length. -/
def among (digests : Digests) (name : String) : Except Fault Hasher :=
  match digests (Fault.untilNul name) with
  | some hasher =>
    if hasher.digestLength = 0 then .error (.unknownDigest name true) else .ok hasher
  | none => .error (.unknownDigest name)

/-- The hasher of a standard digest. -/
def named (name : String) : Except Fault Hasher := among .standard name

/-- FNV-1a in four bytes. -/
def fnv32 : Hasher := ⟨fun bytes => (Bytes.lowDigits 4 (Digest.fnv32 bytes).toNat).toArray, 4⟩

/-- FNV-1a in eight bytes. -/
def fnv64 : Hasher := ⟨fun bytes => Bytes.ofWord (Digest.fnv64 bytes), 8⟩

/-- The sum of the bytes in one byte, where collisions are easy to come by. -/
def sum8 : Hasher := ⟨fun bytes => #[Digest.sum8 bytes], 1⟩

/-- One digest for everything. -/
def constant : Hasher := ⟨fun _ => #[0xcc, 0xcc, 0xcc, 0xcc], 4⟩

/-- A hasher that declares more bytes than its digests have. -/
def lying : Hasher := ⟨fnv32.digest, 8⟩

/-- A hasher of empty digests. -/
def empty : Hasher := ⟨fun _ => #[], 0⟩

end Hasher

end ChunkTree
