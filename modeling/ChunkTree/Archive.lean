import ChunkTree.Join
import ChunkTree.Split

/-!
# Archives

An archive keeps whole contents in a store: putting one in gives a root key, and the key gives the
content back, all at once, in pieces, or as a section.
-/

namespace ChunkTree

variable {σ τ : Type}

/-- Content to be read from a position on, if reading is possible at all. -/
structure InputStream where
  content : Bytes
  position : Nat
  good : Bool

/-- Takes the next bytes of an output and answers whether it will take more. -/
abbrev Sink (σ : Type) := Bytes → Action σ Bool

/-- A chunker and the store for its chunks. -/
structure Archive (σ : Type) where
  chunker : Chunker
  store : Store σ

namespace Archive

variable (archive : Archive σ)

/-- An archive in a part of the state. -/
def within (place : Place τ σ) : Archive τ := ⟨archive.chunker, archive.store.within place⟩

/-- Keeps the content of a section and answers with its root key. -/
def keep (part : Section σ) : Action σ Key := archive.chunker.split part (some archive.store.put)

/-- Keeps bytes in memory. -/
def keepBytes (content : Bytes) : Action σ Key := archive.keep (.ofBytes content)

/-- Keeps the rest of a stream, which is read to its end first. -/
def keepStream (stream : InputStream) : Action σ Key :=
  if stream.good ∧ stream.position ≤ stream.content.size then
    archive.keepBytes (stream.content.extract stream.position stream.content.size)
  else throw .inputInvalid

/-- Opens the content under a root key. -/
def openAt (root : Key) : Action σ (Section σ) := archive.chunker.join archive.store root

/-- All the content under a root key. -/
def read (root : Key) : Action σ Bytes := do
  (← archive.openAt root).readAll

/-- Writes a section from a position on, so many pieces of a width, the last as long as what is left.
The answer is the position reached. -/
def copy (part : Section σ) (sink : Sink σ) (width : Nat) : (pieces position : Nat) → Action σ Nat
  | 0, position => pure position
  | pieces + 1, position => do
    let count := min width (part.size - position)
    let bytes ← part.readAt position count
    if ← sink bytes then copy part sink width pieces (position + count) else throw .outputFailed

/-- How much of a section is written at once: as much as the longest leaf holds, so that no leaf is
fetched twice. -/
def pieceOf (part : Section σ) : Nat := min archive.chunker.pieceSize part.size

/-- Writes all of a section, piece by piece, and answers with its length. -/
def writeOut (part : Section σ) (sink : Sink σ) : Action σ Nat :=
  copy part sink (archive.pieceOf part) (branchCount (archive.pieceOf part) part.size) 0

/-- Writes the content under a root key, piece by piece, and answers with its length. -/
def readTo (root : Key) (sink : Sink σ) : Action σ Nat := do
  archive.writeOut (← archive.openAt root) sink

end Archive

end ChunkTree
