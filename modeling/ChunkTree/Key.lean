import Std.Data.ExtTreeMap
import ChunkTree.Hex

/-!
# Keys

A key addresses a chunk: it is the digest of the chunk's bytes, as long as the digest in use makes
it.  Keys are ordered bytewise, a key before its extensions, and are written in hexadecimal.
-/

namespace ChunkTree

/-- The address of a chunk. -/
structure Key where
  bytes : Bytes
deriving DecidableEq, Inhabited

namespace Key

/-- The number of bytes. -/
def size (key : Key) : Nat := key.bytes.size

/-- Keys are ordered bytewise, a key before its extensions. -/
instance : Ord Key := ⟨compareOn Key.bytes⟩

instance : Std.TransOrd Key :=
  inferInstanceAs (Std.TransCmp (compareOn Key.bytes))

instance : Std.LawfulEqOrd Key where
  eq_of_compare {a b} equal := by
    have bytes : a.bytes = b.bytes := Std.LawfulEqOrd.eq_of_compare equal
    cases a; cases b; simp_all

instance : LT Key := ltOfOrd

instance : LE Key := leOfOrd

/-- The key in lower-case hexadecimal digits. -/
def toHex (key : Key) : String := String.ofList (Hex.encode key.bytes.toList)

/-- A short number for tables of keys.  Digests are well mixed, so their first eight bytes do, with
the length worked in; the empty key has zero. -/
def fingerprint (key : Key) : UInt64 :=
  Bytes.toWord (key.bytes.extract 0 8) ^^^ UInt64.ofNat key.size

/-- Sorted keys, each once. -/
def sorted (keys : List Key) : List Key :=
  (keys.mergeSort (fun a b => (compare a b).isLE)).eraseReps

end Key

end ChunkTree
