import ChunkTree.Bytes

/-!
# Checksums

Short sums over bytes: FNV-1a in 32 and 64 bits, and the plain sum in a byte.
-/

namespace ChunkTree.Digest

/-- FNV-1a in 32 bits. -/
def fnv32 (bytes : Bytes) : UInt32 :=
  bytes.foldl (fun sum byte => (sum ^^^ byte.toUInt32) * 16777619) 2166136261

/-- FNV-1a in 64 bits. -/
def fnv64 (bytes : Bytes) : UInt64 :=
  bytes.foldl (fun sum byte => (sum ^^^ byte.toUInt64) * 1099511628211) 14695981039346656037

/-- The sum of all bytes, modulo 256. -/
def sum8 (bytes : Bytes) : UInt8 := bytes.foldl (· + ·) 0

end ChunkTree.Digest
