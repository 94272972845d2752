import ChunkTree.Proofs.Memory
import ChunkTree.Proofs.WriteBehind

/-!
# Chains of tiered stores

A store in memory in front of a tiered store, whose fast tier is memory again, and so on, down to a last
store in memory.  Each tiered store of such a chain has a worker, which takes what it has kept to the
store behind it, and the workers go on in any order while chunks are put in at the front.

Every store of a chain has taken the first so many of the chunks that the one in front of it has taken,
in the same order (`Chain.Holds`), so they never disagree about the first chunk under a key.  Once the
tiered stores have been flushed, the first of the chain first, all memories are the same, and any of
them can answer for all the others (`Chain.converges_run`).
-/

namespace ChunkTree.Tiered

/-- The state of a chain of so many tiered stores, with a store in memory at its end. -/
@[reducible]
def Chain : ℕ → Type
  | 0 => Memory
  | depth + 1 => (Memory × Chain depth) × Backlog

namespace Chain

/-- The first store of a chain. -/
def store : (depth : ℕ) → Store (Chain depth)
  | 0 => Memory.store
  | depth + 1 => Tiered.store inFront (behind (store depth))

/-- A chain that nothing was put into. -/
def empty : (depth : ℕ) → Chain depth
  | 0 => (∅ : Memory)
  | depth + 1 => ((∅, empty depth), .empty)

/-- One step of a worker, counted from the front. -/
def work : (depth : ℕ) → (worker : ℕ) → Chain depth → Chain depth
  | 0, _, chain => chain
  | depth + 1, 0, chain => Tiered.work (behind (store depth)) chain
  | depth + 1, worker + 1, ((memory, rest), backlog) => ((memory, work depth worker rest), backlog)

/-- The memories of a chain, the first one first. -/
def memories : (depth : ℕ) → Chain depth → List Memory
  | 0, memory => [memory]
  | depth + 1, ((memory, rest), _) => memory :: memories depth rest

/-- What waits for a worker, counted from the front. -/
def pending : (depth : ℕ) → (worker : ℕ) → Chain depth → List Chunk
  | 0, _, _ => []
  | _ + 1, 0, (_, backlog) => backlog.pending
  | depth + 1, worker + 1, ((_, rest), _) => pending depth worker rest

/-- Empties all memories but those that are kept, counted from the front. -/
def clear : (depth : ℕ) → (kept : ℕ → Bool) → Chain depth → Chain depth
  | 0, kept, memory => if kept 0 then memory else (∅ : Memory)
  | depth + 1, kept, ((memory, rest), backlog) =>
    ((if kept 0 then memory else ∅, clear depth (fun level => kept (level + 1)) rest), backlog)

/-- What can happen to a chain: a put, or a step of a worker, each as a whole. -/
inductive Event where
  | put (chunk : Chunk)
  | work (worker : ℕ)

/-- What an event makes of a chain. -/
def step (depth : ℕ) (chain : Chain depth) : Event → Chain depth
  | .put chunk => (((store depth).put chunk).run chain).2
  | .work worker => work depth worker chain

/-- One event after the other. -/
def run (depth : ℕ) (chain : Chain depth) (events : List Event) : Chain depth :=
  events.foldl (step depth) chain

/-- The chunk that an event puts in.  Requests are refused. -/
def Event.taken : Event → List Chunk
  | .put chunk => if chunk.isRequest then [] else [chunk]
  | .work _ => []

/-- So many of the first tiered stores have been flushed, the first of them first.  A flush is over when
nothing waits for its worker, and all workers go on meanwhile. -/
inductive Flushed {depth : ℕ} (start : Chain depth) : (count : ℕ) → Chain depth → Prop where
  | none : Flushed start 0 start
  | turn {count : ℕ} {chain : Chain depth} (flushed : Flushed start count chain) (worker : ℕ) :
      Flushed start count (work depth worker chain)
  | next {count : ℕ} {chain : Chain depth} (flushed : Flushed start count chain)
      (ended : pending depth count chain = []) : Flushed start (count + 1) chain

/-- Every memory holds the first chunks under their keys of those that its store has taken, and what a
store has taken and not passed on waits. -/
def Holds : (depth : ℕ) → (taken : List Chunk) → Chain depth → Prop
  | 0, taken, memory => Memory.HoldsFirst memory taken
  | depth + 1, taken, ((memory, rest), backlog) =>
    memory.HoldsFirst taken ∧ (∀ chunk ∈ taken, ¬ chunk.isRequest) ∧
      ∃ passed, passed ++ backlog.pending = taken ∧ Holds depth passed rest

variable {depth : ℕ} {taken : List Chunk} {chain : Chain depth}

theorem holds_empty (depth : ℕ) : Holds depth [] (empty depth) := by
  induction depth with
  | zero => exact Memory.holdsFirst_empty
  | succ depth ih =>
      exact ⟨Memory.holdsFirst_empty, fun chunk member => absurd member List.not_mem_nil, [], rfl, ih⟩

/-- A chunk with data that is put into a chain is taken, and a request is refused. -/
theorem holds_put (holds : Holds depth taken chain) (chunk : Chunk) :
    (chunk.isRequest → ((store depth).put chunk).run chain =
      (.error (.requestRefused .memory), chain)) ∧
    (¬ chunk.isRequest → ∃ next, ((store depth).put chunk).run chain = (.ok (), next) ∧
      Holds depth (taken ++ [chunk]) next) := by
  cases depth with
  | zero =>
      rw [store, Memory.store, Memory.run_put]
      refine ⟨fun request => if_pos request, fun filled => ?_⟩
      exact ⟨_, if_neg filled, Memory.HoldsFirst.insertIfNew holds chunk⟩
  | succ depth =>
      rw [store, Tiered.store, run_put_inFront]
      refine ⟨fun request => if_pos request, fun filled => ⟨_, if_neg filled, ?_⟩⟩
      obtain ⟨memory, whole, passed, split, rest⟩ := holds
      refine ⟨memory.insertIfNew chunk, ?_, passed, ?_, rest⟩
      · intro other member
        rcases List.mem_append.mp member with old | new
        · exact whole other old
        · rw [List.mem_singleton.mp new]
          exact filled
      · rw [Backlog.pending_push, ← List.append_assoc, split]

/-- No worker changes what the stores in front of its own have taken. -/
theorem holds_work (holds : Holds depth taken chain) (worker : ℕ) :
    Holds depth taken (work depth worker chain) := by
  induction depth generalizing taken worker with
  | zero => exact holds
  | succ depth ih =>
      obtain ⟨⟨memory, rest⟩, backlog⟩ := chain
      obtain ⟨first, whole, passed, split, behind⟩ := holds
      cases worker with
      | succ worker => exact ⟨first, whole, passed, split, ih behind worker⟩
      | zero =>
          change Holds (depth + 1) taken (Tiered.work (Tiered.behind (store depth)) _)
          rw [Tiered.work]
          rcases popped : backlog.pop? with _ | ⟨chunk, left⟩
          · exact ⟨first, whole, passed, split, behind⟩
          · have waiting := Backlog.pending_of_pop? popped
            have filled : ¬ chunk.isRequest := by
              apply whole
              rw [← split, waiting]
              exact List.mem_append_right _ List.mem_cons_self
            obtain ⟨next, ran, held⟩ := (holds_put behind chunk).2 filled
            simp only [Tiered.behind, Store.within, Action.run_within, Place.snd, ran]
            refine ⟨first, whole, passed ++ [chunk], ?_, held⟩
            rw [List.append_assoc, List.singleton_append, ← waiting, split]

/-- A chain goes on holding what it has taken, whatever happens. -/
theorem holds_step (holds : Holds depth taken chain) (event : Event) :
    Holds depth (taken ++ event.taken) (step depth chain event) := by
  cases event with
  | work worker =>
      rw [Event.taken, List.append_nil]
      exact holds_work holds worker
  | put chunk =>
      obtain ⟨refused, accepted⟩ := holds_put holds chunk
      rw [Event.taken, step]
      by_cases request : chunk.isRequest
      · rw [if_pos request, List.append_nil, refused request]
        exact holds
      · obtain ⟨next, ran, held⟩ := accepted request
        rw [if_neg request, ran]
        exact held

theorem holds_run (holds : Holds depth taken chain) (events : List Event) :
    Holds depth (taken ++ events.flatMap Event.taken) (run depth chain events) := by
  induction events generalizing taken chain with
  | nil =>
      rw [List.flatMap_nil, List.append_nil]
      exact holds
  | cons event rest ih =>
      rw [List.flatMap_cons, ← List.append_assoc]
      exact ih (holds_step holds event)

/-- Every memory holds the first chunks of the first so many of those that were taken. -/
theorem holdsFirst_of_mem (holds : Holds depth taken chain) {memory : Memory}
    (member : memory ∈ memories depth chain) : ∃ passed, passed <+: taken ∧ memory.HoldsFirst passed := by
  induction depth generalizing taken with
  | zero =>
      rw [List.mem_singleton.mp member]
      exact ⟨taken, List.prefix_rfl, holds⟩
  | succ depth ih =>
      obtain ⟨⟨front, rest⟩, backlog⟩ := chain
      obtain ⟨first, whole, passed, split, behind⟩ := holds
      rcases List.mem_cons.mp member with rfl | later
      · exact ⟨taken, List.prefix_rfl, first⟩
      · obtain ⟨earlier, before, held⟩ := ih behind later
        exact ⟨earlier, before.trans ⟨backlog.pending, split⟩, held⟩

/-- What a memory holds, all memories in front of it hold too. -/
theorem pairwise_extends (holds : Holds depth taken chain) :
    (memories depth chain).Pairwise fun front back => back.Extends front := by
  induction depth generalizing taken with
  | zero => exact List.pairwise_singleton _ _
  | succ depth ih =>
      obtain ⟨⟨front, rest⟩, backlog⟩ := chain
      obtain ⟨first, whole, passed, split, behind⟩ := holds
      refine List.pairwise_cons.mpr ⟨fun back member key held bound => ?_, ih behind⟩
      obtain ⟨earlier, before, kept⟩ := holdsFirst_of_mem behind member
      rw [kept key] at bound
      rw [first key]
      exact Memory.firstOf_of_leading (before.trans ⟨backlog.pending, split⟩) bound

/-- There is one memory more than tiered stores. -/
theorem length_memories (chain : Chain depth) : (memories depth chain).length = depth + 1 := by
  induction depth with
  | zero => rfl
  | succ depth ih =>
      obtain ⟨⟨memory, rest⟩, backlog⟩ := chain
      rw [memories, List.length_cons, ih]

/-- The first store of a chain answers with what the first memory has that has anything. -/
theorem run_get (chain : Chain depth) (key : Key) :
    ((store depth).get key).run chain =
      (.ok ((memories depth chain).findSome? fun memory => memory[key]?), chain) := by
  induction depth with
  | zero =>
      rw [memories, List.findSome?_singleton]
      exact Memory.run_get key chain
  | succ depth ih =>
      obtain ⟨⟨memory, rest⟩, backlog⟩ := chain
      refine (run_get_inFront (store depth) key ((memory, rest), backlog)).trans ?_
      rw [memories, List.findSome?_cons, ih]
      cases memory[key]? with
      | none => rfl
      | some chunk => rfl

/-- At every point the first store answers with the first chunk taken for a key. -/
theorem run_get_of_holds (holds : Holds depth taken chain) (key : Key) :
    ((store depth).get key).run chain = (.ok (Memory.firstOf taken key), chain) := by
  rw [run_get]
  cases depth with
  | zero =>
      rw [memories, List.findSome?_singleton]
      exact congrArg (fun answer => (Except.ok answer, chain)) (holds key)
  | succ depth =>
      obtain ⟨⟨memory, rest⟩, backlog⟩ := chain
      obtain ⟨first, whole, passed, split, behind⟩ := holds
      rw [memories, List.findSome?_cons, first key]
      cases found : Memory.firstOf taken key with
      | some chunk => rfl
      | none =>
          -- What no chunk was taken for, no store further back has either.
          have nothing : ((memories depth rest).findSome? fun memory => memory[key]?) = none := by
            rw [List.findSome?_eq_none_iff]
            intro back member
            obtain ⟨earlier, before, kept⟩ := holdsFirst_of_mem behind member
            rw [kept key]
            cases early : Memory.firstOf earlier key with
            | none => rfl
            | some chunk =>
                rw [Memory.firstOf_of_leading (before.trans ⟨backlog.pending, split⟩) early] at found
                cases found
          rw [nothing]

/-- Nothing comes to a worker that nothing waits for, unless from the worker in front of it. -/
theorem pending_work_of_drained {count : ℕ} (drained : ∀ level < count, pending depth level chain = [])
    (worker level : ℕ) (early : level < count) : pending depth level (work depth worker chain) = [] := by
  induction depth generalizing count worker level with
  | zero => rfl
  | succ depth ih =>
      obtain ⟨⟨memory, rest⟩, backlog⟩ := chain
      have front : backlog.pending = [] := drained 0 (by omega)
      have later : ∀ level < count - 1, pending depth level rest = [] := fun level below =>
        drained (level + 1) (by omega)
      cases worker with
      | zero =>
          have idle : work (depth + 1) 0 ((memory, rest), backlog) = ((memory, rest), backlog) := by
            rw [work, Tiered.work]
            simp only [Backlog.pop?_eq_none.mpr front]
          rw [idle]
          exact drained level early
      | succ worker =>
          cases level with
          | zero => exact front
          | succ level => exact ih later worker level (by omega)

/-- What was flushed stays without anything that waits. -/
theorem Flushed.drained {start : Chain depth} {count : ℕ} (flushed : Flushed start count chain) :
    ∀ level < count, pending depth level chain = [] := by
  induction flushed with
  | none => exact fun level below => absurd below (Nat.not_lt_zero level)
  | turn flushed worker ih => exact pending_work_of_drained ih worker
  | next flushed ended ih =>
      intro level below
      rcases Nat.lt_succ_iff_lt_or_eq.mp below with before | rfl
      · exact ih level before
      · exact ended

/-- Flushing takes no chunk. -/
theorem Flushed.holds {start : Chain depth} {count : ℕ} (flushed : Flushed start count chain)
    (holds : Holds depth taken start) : Holds depth taken chain := by
  induction flushed with
  | none => exact holds
  | turn flushed worker ih => exact holds_work ih worker
  | next flushed ended ih => exact ih

/-- When nothing waits anywhere, every store has taken everything. -/
theorem holdsFirst_of_drained (holds : Holds depth taken chain)
    (drained : ∀ level < depth, pending depth level chain = []) :
    ∀ memory ∈ memories depth chain, memory.HoldsFirst taken := by
  induction depth generalizing taken with
  | zero =>
      intro memory member
      rw [List.mem_singleton.mp member]
      exact holds
  | succ depth ih =>
      obtain ⟨⟨front, rest⟩, backlog⟩ := chain
      obtain ⟨first, whole, passed, split, behind⟩ := holds
      have nothing : backlog.pending = [] := drained 0 (by omega)
      rw [nothing, List.append_nil] at split
      subst split
      intro memory member
      rcases List.mem_cons.mp member with rfl | later
      · exact first
      · exact ih behind (fun level below => drained (level + 1) (by omega)) memory later

/-- A worker takes one chunk at a time out of what waits for it. -/
theorem pending_work (chain : Chain depth) (worker : ℕ) :
    pending depth worker (work depth worker chain) = (pending depth worker chain).tail := by
  induction depth generalizing worker with
  | zero => rfl
  | succ depth ih =>
      obtain ⟨⟨memory, rest⟩, backlog⟩ := chain
      cases worker with
      | zero => exact Tiered.pending_work (behind (store depth)) ((memory, rest), backlog)
      | succ worker => exact ih rest worker

/-- However much waits, a flush comes to its end. -/
theorem Flushed.exists_next {start : Chain depth} {count : ℕ} (flushed : Flushed start count chain) :
    ∃ next, Flushed start (count + 1) next := by
  induction waits : pending depth count chain generalizing chain with
  | nil => exact ⟨chain, flushed.next waits⟩
  | cons chunk rest ih =>
      apply ih (flushed.turn count)
      rw [pending_work, waits, List.tail_cons]

theorem Flushed.exists_all (start : Chain depth) (count : ℕ) : ∃ chain, Flushed start count chain := by
  induction count with
  | zero => exact ⟨start, .none⟩
  | succ count ih =>
      obtain ⟨chain, flushed⟩ := ih
      exact flushed.exists_next

/-- Emptying some memories of a chain changes no other. -/
theorem memories_clear (kept : ℕ → Bool) (chain : Chain depth) :
    memories depth (clear depth kept chain) =
      (memories depth chain).mapIdx fun level memory => if kept level then memory else ∅ := by
  induction depth generalizing kept with
  | zero => rfl
  | succ depth ih =>
      obtain ⟨⟨memory, rest⟩, backlog⟩ := chain
      rw [clear, memories, memories, List.mapIdx_cons, ih]

/-- A memory that is kept answers for those that were emptied. -/
theorem run_get_clear (whole : ∀ memory ∈ memories depth chain, memory.HoldsFirst taken)
    {kept : ℕ → Bool} (left : ∃ level ≤ depth, kept level) (key : Key) :
    ((store depth).get key).run (clear depth kept chain) =
      (.ok (Memory.firstOf taken key), clear depth kept chain) := by
  rw [run_get, memories_clear]
  cases first : Memory.firstOf taken key with
  | none =>
      have nothing : (((memories depth chain).mapIdx fun level memory =>
          if kept level then memory else ∅).findSome? fun memory => memory[key]?) = none := by
        rw [List.findSome?_eq_none_iff]
        intro memory member
        obtain ⟨level, inside, rfl⟩ := List.mem_mapIdx.mp member
        by_cases keep : kept level
        · rw [if_pos keep, whole _ (List.getElem_mem inside) key, first]
        · rw [if_neg keep]
          exact Std.ExtTreeMap.getElem?_empty
      rw [nothing]
  | some chunk =>
      obtain ⟨level, inside, keep⟩ := left
      have bound : level < (memories depth chain).length := by
        rw [length_memories]
        omega
      have found : ((((memories depth chain).mapIdx fun level memory =>
          if kept level then memory else ∅).findSome? fun memory => memory[key]?)).isSome := by
        rw [List.findSome?_isSome_iff]
        refine ⟨_, List.mem_mapIdx.mpr ⟨level, bound, rfl⟩, ?_⟩
        rw [if_pos keep, whole _ (List.getElem_mem bound) key, first]
        rfl
      obtain ⟨answer, same⟩ := Option.isSome_iff_exists.mp found
      obtain ⟨memory, member, holds⟩ := List.exists_of_findSome?_eq_some same
      obtain ⟨other, among, rfl⟩ := List.mem_mapIdx.mp member
      rw [same]
      by_cases keep : kept other
      · rw [if_pos keep, whole _ (List.getElem_mem among) key, first] at holds
        rw [holds]
      · rw [if_neg keep, Std.ExtTreeMap.getElem?_empty] at holds
        cases holds

/-- What a chain owes to those who use it, after it has taken some chunks. -/
structure Converges (depth : ℕ) (taken : List Chunk) (chain : Chain depth) : Prop where
  /-- What a memory holds, all memories in front of it hold too. -/
  nested : (memories depth chain).Pairwise fun front back => back.Extends front
  /-- The first chunk taken for a key is there to be read, and reading changes nothing. -/
  answers : ∀ key : Key,
    ((store depth).get key).run chain = (.ok (Memory.firstOf taken key), chain)
  /-- The tiered stores can be flushed one after the other. -/
  flushes : ∃ settled, Flushed chain depth settled
  /-- After that, all memories hold the same, which is the first chunk under each key. -/
  settled : ∀ settled, Flushed chain depth settled →
    (memories depth settled).length = depth + 1 ∧
    (∀ memory ∈ memories depth settled, memory.HoldsFirst taken) ∧
    ∀ memory ∈ memories depth settled, ∀ other ∈ memories depth settled, memory = other
  /-- Then all memories but one may be emptied, and every key still has its answer. -/
  spare : ∀ settled, Flushed chain depth settled → ∀ kept : ℕ → Bool,
    (∃ level ≤ depth, kept level) → ∀ key : Key,
      ((store depth).get key).run (clear depth kept settled) =
        (.ok (Memory.firstOf taken key), clear depth kept settled)

/-- **The stores of a chain come to hold the same.**  At every point of every run each memory holds a part
of what the one in front of it holds, and the chain answers with the first chunk put under a key; and
once its stores were flushed from the front to the end, each memory holds all of it. -/
theorem converges_run (depth : ℕ) (events : List Event) :
    Converges depth (events.flatMap Event.taken) (run depth (empty depth) events) := by
  have holds : Holds depth (events.flatMap Event.taken) (run depth (empty depth) events) :=
    holds_run (holds_empty depth) events
  have whole : ∀ settled, Flushed (run depth (empty depth) events) depth settled →
      ∀ memory ∈ memories depth settled, memory.HoldsFirst (events.flatMap Event.taken) :=
    fun settled flushed => holdsFirst_of_drained (flushed.holds holds) flushed.drained
  refine ⟨pairwise_extends holds, run_get_of_holds holds, Flushed.exists_all _ depth, ?_, ?_⟩
  · intro settled flushed
    refine ⟨length_memories settled, whole settled flushed, ?_⟩
    intro memory member other otherMember
    apply Std.ExtTreeMap.ext_getElem?
    intro key
    rw [whole settled flushed memory member key, whole settled flushed other otherMember key]
  · intro settled flushed kept left key
    exact run_get_clear (whole settled flushed) left key

end Chain

end ChunkTree.Tiered
