import ChunkTree.Chunker
import ChunkTree.Section

/-!
# Splitting

Splitting content makes a tree of chunks.  A leaf's chunk holds the content of its section; a node's
holds the keys of its branches.  A section shorter than the window of its place drops levels before
its node is made, so that short content at the end of a tree costs no chain of nodes.  Chunks come
out children first, and the key of the last names the whole.
-/

namespace ChunkTree

variable {σ : Type}

/-- What takes each chunk as it is made. -/
abbrev Collector (σ : Type) := Chunk → Action σ Unit

namespace Chunker

variable (chunker : Chunker) (collect : Collector σ)

/-- Makes the chunk of a section from what follows the header, and hands it over. -/
def emit (size : Nat) (body : Bytes) : Action σ Key := do
  let data := Header.encode (UInt64.ofNat size) ++ body
  let key ← .lift (chunker.keyOf data)
  collect ⟨key, some data, UInt64.ofNat size⟩
  return key

/-- Splits a section at a place of this depth and window. -/
def splitAt : (depth window : Nat) → Section σ → Action σ Key
  | 0, _, part => do
    let content ← part.readAll
    chunker.emit collect part.size content
  | depth + 1, window, part =>
    if part.size < window then splitAt depth (window / chunker.branches) part
    else do
      let keys ← (List.range (branchCount window part.size)).mapM fun index =>
        splitAt depth (window / chunker.branches) (part.branch window index)
      chunker.emit collect part.size (Bytes.concat (keys.map Key.bytes))

/-- Splits all of a section and answers with the key of the root.  Without a collector, or where no
tree covers the content, it fails before anything is read. -/
def split (part : Section σ) (collector : Option (Collector σ)) : Action σ Key := do
  match collector with
  | none => throw .noCollector
  | some collect =>
    let shape ← .lift (chunker.shapeOf part.size)
    chunker.splitAt collect shape.depth shape.window part

/-- The root key and the chunks, in the order they are made, of content in memory. -/
def chunksOf (content : Bytes) : Except Fault (Key × Array Chunk) :=
  let record : Collector (Array Chunk) := fun chunk => .update (·.push chunk)
  match (chunker.split (.ofBytes content) (some record)).run #[] with
  | (.ok root, chunks) => .ok (root, chunks)
  | (.error fault, _) => .error fault

end Chunker

end ChunkTree
