import ChunkTree.Chunk
import ChunkTree.Hasher
import ChunkTree.Shape

/-!
# Chunkers

A chunker fixes how content becomes a tree: the branching factor and the hasher.  The chunk size is
their product, so that a node with all its branches holds as many key bytes as the smallest window
holds content.
-/

namespace ChunkTree

/-- The branching factor and hasher of a tree. -/
structure Chunker where
  branches : Nat
  hasher : Hasher
  two_le_branches : 2 ≤ branches
  digestLength_pos : 0 < hasher.digestLength

namespace Chunker

/-- The branching factor used when none is given. -/
def defaultBranches : Nat := 128

/-- A chunker, unless the hasher is missing or has empty digests, or there are fewer than two
branches. -/
def new (branches : Nat) (hasher : Option Hasher) : Except Fault Chunker :=
  match hasher with
  | none => .error .noHasher
  | some hasher =>
    if digest : hasher.digestLength = 0 then .error .emptyDigest
    else if few : branches < 2 then .error .tooFewBranches
    else .ok ⟨branches, hasher, Nat.le_of_not_lt few, Nat.pos_of_ne_zero digest⟩

/-- A chunker with the digest of a name.  The name is looked up first. -/
def withDigest (digests : Digests) (branches : Nat) (name : String) : Except Fault Chunker := do
  new branches (some (← Hasher.among digests name))

variable (chunker : Chunker)

/-- The length of keys. -/
def keySize : Nat := chunker.hasher.digestLength

/-- The smallest window, as a word. -/
def chunkSize : Nat := chunker.keySize * chunker.branches % wordLimit

/-- How much content is streamed at once, as a word: the longest that a leaf can be. -/
def pieceSize : Nat := chunker.chunkSize * chunker.branches % wordLimit

/-- The size of the longest leaf of a tree that covers content of this size. -/
def longestLeaf (size : Nat) : Nat := min size (chunker.chunkSize * chunker.branches)

/-- The digest of a chunk's data as its key. -/
def keyOf (data : Bytes) : Except Fault Key :=
  let digest := chunker.hasher.digest data
  if digest.size = chunker.keySize then .ok ⟨digest⟩ else .error .digestLength

/-- The shape of the tree over content of this size. -/
def shapeOf (size : Nat) : Except Fault Shape :=
  Shape.cover chunker.branches size ⟨0, chunker.chunkSize⟩

end Chunker

end ChunkTree
