import ChunkTree.Store

/-!
# Tiered stores

A fast tier in front of a durable one.  A put is done when the fast tier has the chunk; the write to
the durable tier waits in a backlog, from which a worker takes one at a time, the oldest first, and
goes on after a failure.  A get asks the durable tier only for what the fast tier does not have, and
copies nothing back.
-/

namespace ChunkTree

variable {σ : Type}

/-- Writes that wait for the durable tier, and how many have failed. -/
structure Backlog where
  /-- The oldest writes, the oldest first. -/
  front : List Chunk
  /-- The newest writes, the newest first. -/
  back : List Chunk
  failed : Nat

namespace Backlog

/-- Nothing waits and nothing has failed. -/
def empty : Backlog := ⟨[], [], 0⟩

/-- The waiting writes, the oldest first. -/
def pending (backlog : Backlog) : List Chunk := backlog.front ++ backlog.back.reverse

/-- Adds a write behind all others. -/
def push (chunk : Chunk) (backlog : Backlog) : Backlog :=
  { backlog with back := chunk :: backlog.back }

/-- The oldest write, and the backlog without it. -/
def pop? (backlog : Backlog) : Option (Chunk × Backlog) :=
  match backlog.front with
  | chunk :: rest => some (chunk, { backlog with front := rest })
  | [] => match backlog.back.reverse with
    | chunk :: rest => some (chunk, { backlog with front := rest, back := [] })
    | [] => none

/-- Puts a write back as the oldest. -/
def unpop (chunk : Chunk) (backlog : Backlog) : Backlog :=
  { backlog with front := chunk :: backlog.front }

/-- Counts a write that failed. -/
def countFailure (backlog : Backlog) : Backlog := { backlog with failed := backlog.failed + 1 }

@[simp]
theorem pending_empty : empty.pending = [] := rfl

@[simp]
theorem pending_push (chunk : Chunk) (backlog : Backlog) :
    (backlog.push chunk).pending = backlog.pending ++ [chunk] := by
  simp [push, pending]

@[simp]
theorem pending_unpop (chunk : Chunk) (backlog : Backlog) :
    (backlog.unpop chunk).pending = chunk :: backlog.pending := by
  simp [unpop, pending]

/-- Nothing is taken from a backlog exactly when nothing waits. -/
theorem pop?_eq_none {backlog : Backlog} : backlog.pop? = none ↔ backlog.pending = [] := by
  rcases backlog with ⟨_ | ⟨_, _⟩, back, _⟩
  · rcases same : back.reverse with _ | ⟨_, _⟩ <;> simp [pop?, pending, same]
  · simp [pop?, pending]

/-- What is taken from a backlog is the oldest write, and the others stay in order. -/
theorem pending_of_pop? {backlog rest : Backlog} {chunk : Chunk}
    (taken : backlog.pop? = some (chunk, rest)) : backlog.pending = chunk :: rest.pending := by
  rcases backlog with ⟨_ | ⟨_, _⟩, back, _⟩
  · rcases same : back.reverse with _ | ⟨_, _⟩
    · simp [pop?, same] at taken
    · obtain ⟨rfl, rfl⟩ : _ ∧ _ := by simpa [pop?, same] using taken
      simp [pending, same]
  · obtain ⟨rfl, rfl⟩ : _ ∧ _ := by simpa [pop?] using taken
    simp [pending]

/-- Taking a write out counts no failure. -/
theorem failed_of_pop? {backlog rest : Backlog} {chunk : Chunk}
    (taken : backlog.pop? = some (chunk, rest)) : rest.failed = backlog.failed := by
  rcases backlog with ⟨_ | ⟨_, _⟩, back, failed⟩
  · rcases reversed : back.reverse with _ | ⟨_, _⟩
    · simp [pop?, reversed] at taken
    · obtain ⟨rfl, rfl⟩ : _ ∧ _ := by simpa [pop?, reversed] using taken
      rfl
  · obtain ⟨rfl, rfl⟩ : _ ∧ _ := by simpa [pop?] using taken
    rfl

end Backlog

namespace Tiered

variable (fast durable : Store σ)

/-- Puts into the fast tier, and, once that has the chunk, into the backlog. -/
def put (chunk : Chunk) : Action (σ × Backlog) Unit := do
  (fast.put chunk).within .fst
  .update fun (tiers, backlog) => (tiers, backlog.push chunk)

/-- Asks the fast tier, and for what it does not have the durable one. -/
def get (key : Key) : Action (σ × Backlog) (Option Chunk) := do
  match ← (fast.get key).within .fst with
  | some chunk => return some chunk
  | none => (durable.get key).within .fst

/-- A fast tier and a durable one as one store. -/
def store : Store (σ × Backlog) := ⟨put fast, get fast durable⟩

/-- One step of the worker: the oldest write is taken to the durable tier, and counted if it fails. -/
def work (state : σ × Backlog) : σ × Backlog :=
  match state.2.pop? with
  | none => state
  | some (chunk, rest) =>
    match (durable.put chunk).run state.1 with
    | (.ok (), tiers) => (tiers, rest)
    | (.error _, tiers) => (tiers, rest.countFailure)

/-- Steps of the worker until nothing waits. -/
def flush (state : σ × Backlog) : σ × Backlog :=
  Nat.repeat (work durable) state.2.pending.length state

/-- A step of the worker takes the oldest write. -/
theorem pending_work (state : σ × Backlog) :
    (work durable state).2.pending = state.2.pending.tail := by
  rw [work]
  rcases taken : state.2.pop? with _ | ⟨chunk, rest⟩
  · rw [Backlog.pop?_eq_none.mp taken]
    rfl
  · rw [Backlog.pending_of_pop? taken, List.tail_cons]
    simp only
    rcases (durable.put chunk).run state.1 with ⟨fault | done, tiers⟩
    · rfl
    · rfl

/-- Nothing waits after a flush. -/
theorem pending_flush (state : σ × Backlog) :
    (flush durable state).2.pending = [] := by
  have steps : ∀ count : Nat,
      (Nat.repeat (work durable) count state).2.pending = state.2.pending.drop count := by
    intro count
    induction count with
    | zero => rfl
    | succ count ih =>
        rw [← List.tail_drop, ← ih]
        exact pending_work durable _
  rw [flush, steps, List.drop_length]

/-- A flush after a flush does nothing. -/
theorem flush_flush (state : σ × Backlog) : flush durable (flush durable state) = flush durable state := by
  have idle := pending_flush durable state
  rw [flush, idle]
  rfl

end Tiered

end ChunkTree
