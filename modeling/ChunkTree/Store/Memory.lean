import Std.Data.ExtTreeMap
import ChunkTree.Store

/-!
# Stores in memory

A map from keys to chunks.  The first chunk put under a key stays there: content under a key is
always the same, so a later put has nothing to change.
-/

namespace ChunkTree

/-- Chunks by their keys. -/
abbrev Memory := Std.ExtTreeMap Key Chunk

namespace Memory

/-- Keeps a chunk under its key unless the key has one.  Requests are refused. -/
def put (chunk : Chunk) : Action Memory Unit :=
  if chunk.isRequest then throw (.requestRefused .memory)
  else .update fun chunks => chunks.insertIfNew chunk.key chunk

/-- The chunk under a key. -/
def get (key : Key) : Action Memory (Option Chunk) := do
  return (← .state)[key]?

/-- Chunks in memory as a store. -/
def store : Store Memory := ⟨put, get⟩

end Memory

end ChunkTree
