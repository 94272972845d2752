import ChunkTree.Chunker
import ChunkTree.Section
import ChunkTree.Store

/-!
# Joining

Joining opens the tree under a root key as a section over its content.  Only the root chunk is
fetched to open it; a read then fetches the chunks whose windows meet its range, from left to right,
a node before its branches.  A fetched chunk has to hash to its key, to state the size that its place
gives it, and to be exactly as long as a leaf or node of that size is.
-/

namespace ChunkTree

variable {σ : Type}

/-- The root of a tree as it was fetched: all that a reader keeps of the tree. -/
structure Root where
  data : Bytes
  /-- The length of the content, which the data states. -/
  size : Nat
  /-- The shape of the whole tree. -/
  shape : Shape
deriving DecidableEq

namespace Chunker

variable (chunker : Chunker) (store : Store σ)

/-- The data of the chunk under a key, which has to hash to that key. -/
def fetch (key : Key) : Action σ Bytes := do
  match ← store.get key with
  | none => throw (.chunkMissing key)
  | some ⟨_, none, _⟩ => throw (.noData key)
  | some ⟨_, some data, _⟩ =>
    let actual ← .lift (chunker.keyOf data)
    if actual = key then pure data else throw (.integrity key)

/-- The length of the data of a chunk of this shape that covers `size` bytes, as a word. -/
def dataLength (key : Key) (shape : Shape) (size : Nat) : Except Fault Nat :=
  if shape.depth = 0 then .ok ((Header.length + size) % wordLimit)
  else
    let branches := branchCount shape.window size
    if branches = 0 ∨ chunker.branches < branches then .error (.branchesMismatch key size branches)
    else .ok ((Header.length + branches * chunker.keySize) % wordLimit)

/-- Checks that data has the length that shape and size give it. -/
def checkLength (key : Key) (data : Bytes) (shape : Shape) (size : Nat) : Except Fault Unit := do
  let expected ← chunker.dataLength key shape size
  if data.size = expected then .ok () else .error (.lengthMismatch key data.size expected)

/-- Checks that data states the size that its place gives it, and has the length that goes with it. -/
def accept (key : Key) (data : Bytes) (shape : Shape) (size : Nat) : Except Fault Unit := do
  let claimed ← Header.decode data
  if claimed.toNat = size then chunker.checkLength key data shape size
  else throw (.sizeMismatch key claimed.toNat size)

/-- The data of a chunk of this shape that its parent says covers `size` bytes. -/
def fetchBranch (key : Key) (shape : Shape) (size : Nat) : Action σ Bytes := do
  let data ← chunker.fetch store key
  .lift (chunker.accept key data shape size)
  return data

/-- The key of a branch in the data of a node. -/
def branchKey (data : Bytes) (index : Nat) : Key :=
  ⟨data.slice (Header.length + index * chunker.keySize) chunker.keySize⟩

/-- The bytes `[position, position + count)` of the content under a chunk that covers `size` bytes at
a place of this depth and window. -/
def readNode : (depth window : Nat) → (data : Bytes) → (size position count : Nat) → Action σ Bytes
  | 0, _, data, _, position, count => pure (data.slice (Header.length + position) count)
  | depth + 1, window, data, size, position, count =>
    if size < window then
      readNode depth (window / chunker.branches) data size position count
    else do
      let stop := position + count
      let first := position / window
      let last := (stop - 1) / window
      if data.size < Header.length + (last + 1) * chunker.keySize then
        throw (.noBranchKey data.size last)
      let parts ← (List.range' first (last + 1 - first)).mapM fun index => do
        let start := index * window
        let branchSize := min window (size - start)
        let low := max position start
        let high := min stop (start + branchSize)
        let shape := Shape.settle chunker.branches branchSize depth (window / chunker.branches)
        let branch ← chunker.fetchBranch store (chunker.branchKey data index) shape branchSize
        readNode depth (window / chunker.branches) branch branchSize (low - start) (high - low)
      return Bytes.concat parts

/-- The root that data makes under a key: its size has to have a shape, and it the length of that. -/
def rootOf (key : Key) (data : Bytes) : Except Fault Root := do
  let size := (← Header.decode data).toNat
  match chunker.shapeOf size with
  | .error _ => throw (.impossibleSize key size)
  | .ok shape =>
    chunker.checkLength key data (shape.normalize chunker.branches size) size
    return ⟨data, size, shape⟩

/-- Fetches the root of the tree under a key. -/
def openRoot (key : Key) : Action σ Root := do
  .lift (chunker.rootOf key (← chunker.fetch store key))

/-- The content under a root. -/
def sectionOf (root : Root) : Section σ :=
  .whole (chunker.readNode store root.shape.depth root.shape.window root.data root.size) root.size

/-- Opens the tree under a root key. -/
def join (key : Key) : Action σ (Section σ) := do
  return chunker.sectionOf store (← chunker.openRoot store key)

end Chunker

end ChunkTree
