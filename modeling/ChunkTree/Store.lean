import ChunkTree.Action
import ChunkTree.Chunk

/-!
# Stores

A store keeps chunks by their keys in a state of some type.  Its answers may be anything: whoever
reads from a store checks what comes back.
-/

namespace ChunkTree

variable {σ τ : Type}

/-- A way to keep chunks in a state. -/
structure Store (σ : Type) where
  put : Chunk → Action σ Unit
  /-- The chunk under a key, or nothing. -/
  get : Key → Action σ (Option Chunk)

/-- A store in a part of the state. -/
def Store.within (place : Place σ τ) (store : Store τ) : Store σ where
  put chunk := (store.put chunk).within place
  get key := (store.get key).within place

end ChunkTree
