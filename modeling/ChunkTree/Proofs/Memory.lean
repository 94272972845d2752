import ChunkTree.Proofs.Emission
import ChunkTree.Store.Memory
import ChunkTree.Store.Tiered
import Mathlib.Logic.Basic

/-!
# What a store in memory keeps

The first chunk put under a key stays there, so what is bound stays bound to the same chunk whatever
is put later (`Memory.extends_putAll`), and what is bound is the first chunk of each key
(`Memory.HoldsFirst.insertIfNew`).  Handing the nodes of a tree to a store in memory leaves
every one of them bound to its data, if no two of them disagree about a key and the store does not
disagree with them (`Memory.run_forM_deliver`).

In front of another store, memory takes every put and answers for what it has; the other store is asked
for what it does not have (`Tiered.run_put_inFront`, `Tiered.run_get_inFront`).
-/

namespace ChunkTree.Memory

/-- Everything bound in the one is bound to the same chunk in the other. -/
def Extends (before after : Memory) : Prop :=
  ∀ (key : Key) (held : Chunk), before[key]? = some held → after[key]? = some held

theorem Extends.refl (memory : Memory) : memory.Extends memory := fun _ _ bound => bound

theorem Extends.trans {first second third : Memory} (left : first.Extends second)
    (right : second.Extends third) : first.Extends third :=
  fun key held bound => right key held (left key held bound)

theorem run_put (chunk : Chunk) (memory : Memory) :
    (put chunk).run memory =
      if chunk.isRequest then (.error (.requestRefused .memory), memory)
      else (.ok (), memory.insertIfNew chunk.key chunk) := by
  unfold put
  by_cases request : chunk.isRequest
  · rw [if_pos request, if_pos request]
    rfl
  · rw [if_neg request, if_neg request]
    rfl

theorem run_get (key : Key) (memory : Memory) :
    (store.get key).run memory = (.ok memory[key]?, memory) :=
  rfl

/-- A new chunk is bound under its key, unless something was bound there before. -/
theorem getElem?_insertIfNew (memory : Memory) (chunk : Chunk) (key : Key) :
    (memory.insertIfNew chunk.key chunk)[key]? =
      if chunk.key = key ∧ memory[key]? = none then some chunk else memory[key]? := by
  rw [Std.ExtTreeMap.getElem?_insertIfNew]
  by_cases same : chunk.key = key
  · subst same
    have bound : chunk.key ∉ memory ↔ memory[chunk.key]? = none := by
      rw [Std.ExtTreeMap.mem_iff_isSome_getElem?, Option.not_isSome_iff_eq_none]
    simp only [Std.ReflCmp.compare_self, bound, true_and]
  · have different : ¬ compare chunk.key key = .eq := fun equal =>
      same (Std.LawfulEqCmp.eq_of_compare equal)
    simp only [different, same, false_and]

theorem extends_insertIfNew (memory : Memory) (chunk : Chunk) :
    memory.Extends (memory.insertIfNew chunk.key chunk) := by
  intro key held bound
  rw [getElem?_insertIfNew, bound]
  simp

/-- The first of some chunks with a key. -/
def firstOf (chunks : List Chunk) (key : Key) : Option Chunk := chunks.find? (·.key = key)

/-- The first chunk is among the earlier ones, if one of those has the key. -/
theorem firstOf_append (earlier later : List Chunk) (key : Key) :
    firstOf (earlier ++ later) key = (firstOf earlier key).or (firstOf later key) :=
  List.find?_append

/-- Bound under every key is the first of these chunks that has it. -/
def HoldsFirst (memory : Memory) (chunks : List Chunk) : Prop :=
  ∀ key : Key, memory[key]? = firstOf chunks key

theorem holdsFirst_empty : HoldsFirst ∅ [] := by
  intro key
  rw [Std.ExtTreeMap.getElem?_empty]
  rfl

/-- A chunk that is put later is the first with its key only if there was none. -/
theorem HoldsFirst.insertIfNew {memory : Memory} {chunks : List Chunk}
    (holds : memory.HoldsFirst chunks) (chunk : Chunk) :
    HoldsFirst (memory.insertIfNew chunk.key chunk) (chunks ++ [chunk]) := by
  intro key
  rw [getElem?_insertIfNew, holds key]
  cases before : firstOf chunks key with
  | some first =>
      rw [if_neg fun new => Option.some_ne_none first new.2, firstOf_append, before, Option.some_or]
  | none =>
      rw [firstOf_append, before, Option.none_or]
      by_cases same : chunk.key = key
      · simp [firstOf, same]
      · simp [firstOf, same]

/-- What is first among the earlier chunks is first among all. -/
theorem firstOf_of_leading {earlier chunks : List Chunk} (before : earlier <+: chunks) {key : Key}
    {first : Chunk} (found : firstOf earlier key = some first) : firstOf chunks key = some first := by
  obtain ⟨later, rfl⟩ := before
  rw [firstOf_append, found, Option.some_or]

/-- Puts of chunks, one after the other, whether they are refused or not. -/
def putAll (memory : Memory) (chunks : List Chunk) : Memory :=
  chunks.foldl (fun memory chunk => ((put chunk).run memory).2) memory

/-- No put unbinds or replaces anything. -/
theorem extends_putAll (chunks : List Chunk) (memory : Memory) :
    memory.Extends (memory.putAll chunks) := by
  induction chunks generalizing memory with
  | nil => exact Extends.refl memory
  | cons chunk rest ih =>
      refine Extends.trans ?_ (ih _)
      simp only [run_put]
      by_cases request : chunk.isRequest
      · rw [if_pos request]
        exact Extends.refl memory
      · rw [if_neg request]
        exact extends_insertIfNew memory chunk

variable (chunker : Chunker)

/-- Every node of the tree is bound to its data. -/
def Serves (memory : Memory) (tree : Tree) : Prop :=
  ∀ node ∈ tree.preorder, ∃ held, memory[chunker.nameOf node.data]? = some held ∧
    held.data = some node.data

/-- Nothing is bound under the key of one of the trees but its data. -/
def Agrees (memory : Memory) (trees : List Tree) : Prop :=
  ∀ tree ∈ trees, ∀ held, memory[chunker.nameOf tree.data]? = some held → held.data = some tree.data

variable {chunker}

theorem Serves.of_extends {before after : Memory} {tree : Tree}
    (serves : before.Serves chunker tree) (grown : before.Extends after) :
    after.Serves chunker tree := by
  intro node member
  obtain ⟨held, bound, data⟩ := serves node member
  exact ⟨held, grown _ _ bound, data⟩

/-- A chunk of the same tree may be bound as well, if the trees do not disagree about a key. -/
theorem Agrees.insertIfNew {memory : Memory} {trees : List Tree} {tree : Tree}
    (agrees : memory.Agrees chunker trees)
    (distinct : ∀ other ∈ trees, chunker.nameOf tree.data = chunker.nameOf other.data →
      tree.data = other.data) :
    Agrees chunker (memory.insertIfNew (chunker.chunkOf tree).key (chunker.chunkOf tree))
      trees := by
  intro other member held bound
  rw [getElem?_insertIfNew] at bound
  by_cases new : (chunker.chunkOf tree).key = chunker.nameOf other.data ∧
      memory[chunker.nameOf other.data]? = none
  · rw [if_pos new, Option.some.injEq] at bound
    rw [← bound, ← distinct other member new.1]
    rfl
  · rw [if_neg new] at bound
    exact agrees other member held bound

/-- Once handed over, a tree is bound to its data. -/
theorem bound_insertIfNew {memory : Memory} {tree : Tree}
    (agrees : ∀ held, memory[chunker.nameOf tree.data]? = some held → held.data = some tree.data) :
    ∃ held, (memory.insertIfNew (chunker.chunkOf tree).key
        (chunker.chunkOf tree))[chunker.nameOf tree.data]? = some held ∧
      held.data = some tree.data := by
  rw [getElem?_insertIfNew]
  cases bound : memory[chunker.nameOf tree.data]? with
  | none => exact ⟨chunker.chunkOf tree, if_pos ⟨rfl, rfl⟩, rfl⟩
  | some held =>
      refine ⟨held, if_neg ?_, agrees held bound⟩
      simp

/-- Trees that are handed over one after the other are all bound to their data. -/
theorem run_forM_deliver {trees : List Tree}
    (long : ∀ tree ∈ trees, (chunker.hasher.digest tree.data).size = chunker.keySize)
    (distinct : ∀ tree ∈ trees, ∀ other ∈ trees,
      chunker.nameOf tree.data = chunker.nameOf other.data → tree.data = other.data)
    {memory : Memory} (agrees : memory.Agrees chunker trees) :
    ∃ kept, (forM trees (chunker.deliver put) : Action Memory Unit).run memory = (.ok (), kept) ∧
      memory.Extends kept ∧
      ∀ tree ∈ trees, ∃ held, kept[chunker.nameOf tree.data]? = some held ∧
        held.data = some tree.data := by
  induction trees generalizing memory with
  | nil =>
      exact ⟨memory, rfl, Extends.refl memory, fun tree member => absurd member List.not_mem_nil⟩
  | cons tree rest ih =>
      have first : (chunker.deliver put tree).run memory =
          (.ok (), memory.insertIfNew (chunker.chunkOf tree).key (chunker.chunkOf tree)) := by
        rw [Chunker.run_deliver, if_pos (long tree List.mem_cons_self), run_put]
        exact if_neg Bool.false_ne_true
      have here := agrees tree List.mem_cons_self
      have there : Agrees chunker _ rest :=
        Agrees.insertIfNew (fun other member => agrees other (List.mem_cons_of_mem _ member))
          fun other member =>
            distinct tree List.mem_cons_self other (List.mem_cons_of_mem _ member)
      obtain ⟨kept, ran, grown, bound⟩ :=
        ih (fun other member => long other (List.mem_cons_of_mem _ member))
          (fun one member other otherMember => distinct one (List.mem_cons_of_mem _ member) other
            (List.mem_cons_of_mem _ otherMember)) there
      refine ⟨kept, ?_, (extends_insertIfNew memory _).trans grown, ?_⟩
      · rw [List.forM_cons, Action.run_bind, first]
        exact ran
      · intro other member
        rcases List.mem_cons.mp member with rfl | member
        · obtain ⟨held, new, data⟩ := bound_insertIfNew here
          exact ⟨held, grown _ _ new, data⟩
        · exact bound other member

end ChunkTree.Memory

namespace ChunkTree.Tiered

variable {δ : Type}

/-- A store in memory as the fast tier. -/
def inFront : Store (Memory × δ) := Memory.store.within .fst

/-- A store as the durable tier behind memory. -/
def behind (durable : Store δ) : Store (Memory × δ) := durable.within .snd

/-- A put is done when memory has the chunk, and its write waits behind all others. -/
theorem run_put_inFront (chunk : Chunk) (state : (Memory × δ) × Backlog) :
    (put inFront chunk).run state =
      if chunk.isRequest then (.error (.requestRefused .memory), state)
      else (.ok (), ((state.1.1.insertIfNew chunk.key chunk, state.1.2), state.2.push chunk)) := by
  rw [put, Action.run_bind, Action.run_within]
  simp only [inFront, Store.within, Action.run_within, Place.fst, Memory.store, Memory.run_put]
  by_cases request : chunk.isRequest
  · simp only [if_pos request]
  · simp only [if_neg request, Action.run_update]

/-- A get asks the durable tier for what memory does not have, and copies nothing. -/
theorem run_get_inFront (durable : Store δ) (key : Key) (state : (Memory × δ) × Backlog) :
    (get inFront (behind durable) key).run state =
      match state.1.1[key]? with
      | some chunk => (.ok (some chunk), state)
      | none => (((durable.get key).run state.1.2).1,
          ((state.1.1, ((durable.get key).run state.1.2).2), state.2)) := by
  rw [get, Action.run_bind, Action.run_within]
  simp only [inFront, Store.within, Action.run_within, Place.fst, Memory.run_get]
  rcases state.1.1[key]? with _ | chunk
  · simp only [Action.run_within, behind, Store.within, Place.snd]
  · rfl

end ChunkTree.Tiered
