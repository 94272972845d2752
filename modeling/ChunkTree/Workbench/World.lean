import ChunkTree.InputFile
import ChunkTree.Store.Disk
import ChunkTree.Store.Memory
import ChunkTree.Store.Probe
import ChunkTree.Store.Tiered

/-!
# A world of stores

Stores of all kinds that share one state, each with its part of it.  A put is a course of stages, some
of which are gates: the worker of a tiered store waits at a closed gate, and goes on from there when
it has opened.
-/

namespace ChunkTree

variable {σ α : Type}

/-- One thing that a put does, or a gate where it waits. -/
inductive Stage (σ : Type) where
  | act (action : Action σ Unit)
  | gate (isOpen : σ → Bool)

/-- How far a put has come: it waits, with some stages done, or it has ended. -/
inductive Standing where
  | waiting (done : Nat)
  | ended (outcome : Except Fault Unit)

namespace Stage

/-- Runs stages, after some that are done, until one fails or a gate is closed. -/
def advance : List (Stage σ) → (done : Nat) → σ → Standing × σ
  | [], _, state => (.ended (.ok ()), state)
  | .act action :: rest, done, state =>
    match action.run state with
    | (.ok (), state) => advance rest (done + 1) state
    | (.error fault, state) => (.ended (.error fault), state)
  | .gate isOpen :: rest, done, state =>
    if isOpen state then advance rest (done + 1) state else (.waiting done, state)

/-- Runs stages to their end, through every gate. -/
def force : List (Stage σ) → Action σ Unit
  | [] => pure ()
  | .act action :: rest => do action; force rest
  | .gate _ :: rest => force rest

end Stage

/-- A place in a table of numbered parts. -/
def Place.entry (number : Nat) (absent : α) : Place (Std.ExtTreeMap Nat α) α where
  view table := table.getD number absent
  update part table := table.insert number part

/-- Waiting writes, and how many stages of the oldest are done. -/
structure Ledger where
  backlog : Backlog
  done : Nat

/-- The state that all stores and readers share. -/
structure World where
  files : FileSystem
  inputs : Std.ExtTreeMap Nat InputFile
  memories : Std.ExtTreeMap Nat Memory
  ledgers : Std.ExtTreeMap Nat Ledger
  journals : Std.ExtTreeMap Nat Journal
  attempts : Std.ExtTreeMap Nat Attempts
  openGates : Std.ExtTreeMap Nat Bool

namespace World

/-- A world without stores, over an empty directory. -/
def empty : World := ⟨.empty, ∅, ∅, ∅, ∅, ∅, ∅⟩

/-- The files. -/
def filesPlace : Place World FileSystem := ⟨files, fun part world => { world with files := part }⟩

/-- The files beside one of them that is open for reading. -/
def inputPlace (number : Nat) : Place World (FileSystem × InputFile) where
  view world := (world.files, world.inputs.getD number (.opened "" 0))
  update pair world := { world with files := pair.1, inputs := world.inputs.insert number pair.2 }

/-- The chunks of a store in memory. -/
def memoryPlace (number : Nat) : Place World Memory :=
  Place.comp ⟨memories, fun part world => { world with memories := part }⟩ (.entry number ∅)

/-- The waiting writes of a tiered store. -/
def ledgerPlace (number : Nat) : Place World Ledger :=
  Place.comp ⟨ledgers, fun part world => { world with ledgers := part }⟩ (.entry number ⟨.empty, 0⟩)

/-- The record of a recording store. -/
def journalPlace (number : Nat) : Place World Journal :=
  Place.comp ⟨journals, fun part world => { world with journals := part }⟩ (.entry number .empty)

/-- The counters of an unreachable store. -/
def attemptsPlace (number : Nat) : Place World Attempts :=
  Place.comp ⟨attempts, fun part world => { world with attempts := part }⟩ (.entry number .none)

/-- Whether a gate is open. -/
def gatePlace (number : Nat) : Place World Bool :=
  Place.comp ⟨openGates, fun part world => { world with openGates := part }⟩ (.entry number false)

/-- The world beside the waiting writes of a tiered store. -/
def tieredPlace (number : Nat) : Place World (World × Backlog) where
  view world := (world, ((ledgerPlace number).view world).backlog)
  update pair _ :=
    let ledger := (ledgerPlace number).view pair.1
    (ledgerPlace number).update { ledger with backlog := pair.2 } pair.1

/-- The world beside the record of a recording store. -/
def recordedPlace (number : Nat) : Place World (World × Journal) where
  view world := (world, (journalPlace number).view world)
  update pair _ := (journalPlace number).update pair.2 pair.1

end World

/-- What a store is, for what only some kinds can do, with the number of its part. -/
inductive Kind where
  | memory (number : Nat)
  | disk (base : String)
  | tiered (number : Nat)
  | unreachable (number : Nat)
  | recording (number : Nat)
  | gated (number : Nat)
  | plain

/-- The way that a put takes. -/
abbrev Course := Chunk → List (Stage World)

/-- A store in the world. -/
structure Mount where
  kind : Kind
  store : Store World
  course : Course
  /-- For a tiered store, the way of its durable writes. -/
  durable : Course

namespace Mount

/-- A store whose puts take one stage. -/
def ofStore (kind : Kind) (store : Store World) : Mount :=
  ⟨kind, store, fun chunk => [.act (store.put chunk)], fun _ => []⟩

/-- A store whose puts take several stages. -/
def ofCourse (kind : Kind) (course : Course) (get : Key → Action World (Option Chunk))
    (durable : Course) : Mount :=
  ⟨kind, ⟨fun chunk => Stage.force (course chunk), get⟩, course, durable⟩

/-- A store in memory. -/
def memory (number : Nat) : Mount :=
  ofStore (.memory number) (Memory.store.within (World.memoryPlace number))

/-- A store on disk. -/
def disk (base : String) : Mount :=
  ofStore (.disk base) ((Disk.store base).within World.filesPlace)

/-- A store that refuses everything. -/
def unreachable (number : Nat) : Mount :=
  ofStore (.unreachable number) (Store.unreachable.within (World.attemptsPlace number))

/-- A store whose puts fail without a message. -/
def throwing : Mount := ofStore .plain .throwing

/-- A store that forgets what is put. -/
def hollow : Mount := ofStore .plain .hollow

/-- A store that records what another is asked for. -/
def recording (number : Nat) (inner : Mount) : Mount :=
  let note (key : Key) : Action World Unit :=
    Action.within (World.journalPlace number)
      (.update fun journal => { journal with puts := key :: journal.puts })
  ofCourse (.recording number) (fun chunk => .act (note chunk.key) :: inner.course chunk)
    (((Store.recording inner.store).within (World.recordedPlace number)).get) (fun _ => [])

/-- A store in front of which puts wait at a gate. -/
def gated (number : Nat) (inner : Mount) : Mount :=
  ofCourse (.gated number) (fun chunk => .gate (World.gatePlace number).view :: inner.course chunk)
    inner.store.get (fun _ => [])

/-- A fast store in front of a durable one. -/
def tiered (number : Nat) (fast durable : Mount) : Mount :=
  let enqueue (chunk : Chunk) : Action World Unit :=
    Action.within (World.ledgerPlace number)
      (.update fun ledger => { ledger with backlog := ledger.backlog.push chunk })
  ofCourse (.tiered number) (fun chunk => fast.course chunk ++ [.act (enqueue chunk)])
    (((Tiered.store fast.store durable.store).within (World.tieredPlace number)).get) durable.course

/-- One step of the worker of a tiered store: the oldest write goes on as far as gates let it.  The
answer is whether it came to its end. -/
def work (mount : Mount) (number : Nat) (world : World) : Bool × World :=
  let ledger := (World.ledgerPlace number).view world
  match ledger.backlog.pop? with
  | none => (false, world)
  | some (chunk, rest) =>
    match Stage.advance ((mount.durable chunk).drop ledger.done) ledger.done world with
    | (.waiting done, world) => (false, (World.ledgerPlace number).update ⟨rest.unpop chunk, done⟩ world)
    | (.ended (.ok ()), world) => (true, (World.ledgerPlace number).update ⟨rest, 0⟩ world)
    | (.ended (.error _), world) => (true, (World.ledgerPlace number).update ⟨rest.countFailure, 0⟩ world)

/-- So many steps of the worker, or as many as come to their end. -/
def workOn (mount : Mount) (number : Nat) : (steps : Nat) → World → World
  | 0, world => world
  | steps + 1, world =>
    match mount.work number world with
    | (true, world) => mount.workOn number steps world
    | (false, world) => world

/-- Steps of the worker until nothing waits but what is at a closed gate. -/
def settle (mount : Mount) (world : World) : World :=
  match mount.kind with
  | .tiered number =>
    mount.workOn number ((World.ledgerPlace number).view world).backlog.pending.length world
  | _ => world

end Mount

end ChunkTree
