import ChunkTree.Log
import ChunkTree.Program

/-!
# Processes

A process is the program among whatever may happen beside its shell.  The worker takes writes to the
disk one by one, at any time and well or not; texts are added to the log, which is a file like others;
and the disk may be full.  When all this happens is up to the surroundings of the process: before each
call of the store, while the shell waits for a line, and while the process waits for the worker at its
end.
-/

namespace ChunkTree.Process

/-- What happens beside the shell. -/
inductive Event where
  /-- The worker takes the oldest write that waits. -/
  | write (trouble? : Option Disk.Trouble)
  /-- A text is added to the log. -/
  | record (text : Bytes)
  /-- The log is closed, to be opened again for the next text. -/
  | rotate

/-- What the program does not decide. -/
structure Surroundings where
  /-- The path of a log with some name, at each moment. -/
  logFile : String → Nat → String
  /-- What is logged first. -/
  greeting : List Bytes
  /-- What happens while the shell waits for a line or the process for the worker. -/
  pauses : Nat → Program.State → List Event
  /-- What happens before a call of the store. -/
  interludes : Nat → Program.State → List Event
  /-- What goes wrong with a write for which the process waits. -/
  troubles : Nat → Option Disk.Trouble
  /-- How many more bytes a file can take that is opened, if there is a bound. -/
  room : Nat → Option Nat

/-- What a process works on. -/
structure State where
  tiers : Program.State
  /-- The file of the log, if that is open. -/
  log : Option Nat
  /-- Whether a text could not be added to the log.  The program ends then. -/
  unlogged : Bool
  /-- How often something may have happened beside the shell. -/
  moment : Nat

namespace State

/-- Chunks in memory, files, and the writes between them. -/
def tiersPlace : Place State Program.State := ⟨tiers, fun tiers state => { state with tiers := tiers }⟩

/-- The files. -/
def filesPlace : Place State FileSystem := tiersPlace.comp (Place.fst.comp .snd)

/-- The files, with the log. -/
def logPlace : Place State (FileSystem × Option Nat) where
  view state := (filesPlace.view state, state.log)
  update part state := { filesPlace.update part.1 state with log := part.2 }

/-- The state in which a process starts on files. -/
def start (files : FileSystem) : State := ⟨((∅, files), Backlog.empty), none, false, 0⟩

end State

variable (surroundings : Surroundings) (options : Options)

/-- Adds a text to the log. -/
def record (text : Bytes) : Action State Unit := .of fun state =>
  ((Log.add (surroundings.logFile options.logFile state.moment) text).within State.logPlace).run state

/-- What an event makes of the state.  That a text cannot be added to the log is only noted: what would
follow is not what the program does, which fails then. -/
def happen (state : State) : Event → State
  | .write trouble? =>
    let durable := (Disk.storeUnder options.directory trouble?).within .snd
    { state with tiers := Tiered.work durable state.tiers }
  | .record text =>
    match (record surroundings options text).run state with
    | (.ok (), state) => state
    | (.error _, state) => { state with unlogged := true }
  | .rotate => { state with log := none }

/-- A moment passes, with the events that it brings. -/
def pass (events : Nat → Program.State → List Event) (state : State) : State :=
  (events state.moment state.tiers).foldl (happen surroundings options)
    { state with moment := state.moment + 1 }

/-- Both tiers as a store, with interludes. -/
def store : Store State :=
  let tiers := (Tiered.store Program.fastTier (Program.durableTier options.directory)).within
    State.tiersPlace
  let interlude : Action State Unit := .update (pass surroundings options surroundings.interludes)
  { put := fun chunk => do interlude; tiers.put chunk
    get := fun key => do interlude; tiers.get key }

/-- The shell over both tiers. -/
def shell (chunker : Chunker) : Shell State :=
  let store := store surroundings options
  { archive := ⟨chunker, store⟩
    store := store
    files := State.filesPlace
    allowance := .usual
    idle := pass surroundings options surroundings.pauses
    room := fun state => surroundings.room state.moment }

/-- Opens the log, for as much as is logged at once. -/
def openLog : Action State Unit := do
  if options.logFile = "" then throw Program.noPlace
  forM surroundings.greeting (record surroundings options)

/-- Makes a chunker and opens the store. -/
def openStore (digests : Digests) : Action State Chunker := do
  let chunker ← .lift (Chunker.withDigest digests options.branches options.digest)
  (Disk.openAt options.directory).within State.filesPlace
  return chunker

/-- Waits until the oldest write has been taken. -/
def await (state : State) : State :=
  happen surroundings options (pass surroundings options surroundings.pauses state)
    (.write (surroundings.troubles state.moment))

/-- Waits until nothing waits for the worker any more. -/
def settle (state : State) : State :=
  pass surroundings options surroundings.pauses
    (Nat.repeat (await surroundings options) state.tiers.2.pending.length state)

/-- Runs the program with options that could be read.  It succeeds if it could start, every durable
write was done, and everything was logged. -/
def serve (digests : Digests) (input : String) (files : FileSystem) : Program.Outcome :=
  match (openLog surroundings options).run (.start files) with
  | (.error fault, state) =>
    ⟨1, #[], Program.startComplaint true fault, State.filesPlace.view state⟩
  | (.ok (), state) => match (openStore options digests).run state with
    | (.error fault, state) =>
      ⟨1, #[], Program.startComplaint false fault, State.filesPlace.view state⟩
    | (.ok chunker, state) =>
      let state := pass surroundings options surroundings.pauses state
      match ((shell surroundings options chunker).run input.toList).run (state, #[]) with
      | (_, (state, output)) =>
        let state := settle surroundings options state
        let clean := state.tiers.2.failed = 0 ∧ !state.unlogged
        ⟨if clean then 0 else 1, output, "", State.filesPlace.view state⟩

end ChunkTree.Process
