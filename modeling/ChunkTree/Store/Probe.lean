import ChunkTree.Store

/-!
# Probes

Stores that fail, answer badly, or record what is asked of them, to see how others deal with it.
-/

namespace ChunkTree

variable {σ : Type}

/-- How often a store was asked. -/
structure Attempts where
  puts : Nat
  gets : Nat

/-- Nothing was asked. -/
def Attempts.none : Attempts := ⟨0, 0⟩

/-- The keys that a store was asked for, the latest first. -/
structure Journal where
  puts : List Key
  gets : List Key

/-- Nothing was asked. -/
def Journal.empty : Journal := ⟨[], []⟩

namespace Store

/-- A store that refuses everything and counts the attempts. -/
def unreachable : Store Attempts where
  put _ := do
    .update fun attempts => { attempts with puts := attempts.puts + 1 }
    throw .putUnreachable
  get _ := do
    .update fun attempts => { attempts with gets := attempts.gets + 1 }
    throw .getUnreachable

/-- A store whose puts fail without a message and whose gets find nothing. -/
def throwing : Store σ where
  put _ := throw .foreign
  get _ := return none

/-- A store that forgets what is put and answers with requests. -/
def hollow : Store σ where
  put _ := return
  get key := return some (.request key)

/-- A store that records the keys asked for before it asks another. -/
def recording (inner : Store σ) : Store (σ × Journal) where
  put chunk := do
    .update fun (state, journal) => (state, { journal with puts := chunk.key :: journal.puts })
    (inner.put chunk).within .fst
  get key := do
    .update fun (state, journal) => (state, { journal with gets := key :: journal.gets })
    (inner.get key).within .fst

end Store

end ChunkTree
