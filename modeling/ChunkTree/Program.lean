import ChunkTree.Options
import ChunkTree.Store.Disk
import ChunkTree.Store.Memory
import ChunkTree.Store.Tiered

/-!
# The program

The program reads its options, opens a store in memory in front of one on disk, and runs the shell on
its input.  It succeeds if it could start and every durable write was done.  Here durable writes are
done while the shell waits, nothing goes wrong with them, and nothing is logged; the program among
whatever may happen beside it is a process.
-/

namespace ChunkTree.Program

/-- What the program works on: chunks in memory, the files, and the writes between them. -/
abbrev State := (Memory × FileSystem) × Backlog

/-- What a run leaves. -/
structure Outcome where
  exitCode : UInt32
  output : Bytes
  complaint : String
  files : FileSystem

/-- The chunks in memory. -/
def fastTier : Store (Memory × FileSystem) := Memory.store.within .fst

/-- The chunks in files. -/
def durableTier (directory : String) : Store (Memory × FileSystem) :=
  (Disk.store directory).within .snd

/-- A log without a name has no place. -/
def noPlace : Fault := .fileSystem "cannot make absolute path" .invalid ""

/-- The shell over both tiers.  Durable writes go on while it waits for a line. -/
def shell (chunker : Chunker) (directory : String) : Shell State :=
  let store := Tiered.store fastTier (durableTier directory)
  { archive := ⟨chunker, store⟩
    store := store
    files := Place.fst.comp .snd
    allowance := .usual
    idle := Tiered.flush (durableTier directory)
    room := fun _ => none }

/-- What the program needs before it serves: a place for its log, a chunker, and the directory of its
store.  Nothing is logged, so no log is opened there. -/
def prepare (options : Options) : Action FileSystem Chunker := do
  if options.logFile = "" then throw noPlace
  let chunker ← .lift (Chunker.withDigest Digests.standard options.branches options.digest)
  Disk.openAt options.directory
  return chunker

/-- The complaint of a program that could not start.  A log that fails is reported twice. -/
def startComplaint (logFails : Bool) (fault : Fault) : String :=
  (if logFails then "Failed to initialize logging: " ++ fault.message ++ "\n" else "")
    ++ "Error: Failed to start shell: " ++ fault.message ++ "\n"

/-- Serves an input with options that could be read. -/
def serve (options : Options) (input : String) (files : FileSystem) : Outcome :=
  match (prepare options).run files with
  | (.error fault, files) => ⟨1, #[], startComplaint (options.logFile = "") fault, files⟩
  | (.ok chunker, files) =>
    let served := (shell chunker options.directory).run input.toList
    match served.run (((∅, files), Backlog.empty), #[]) with
    | (_, (state, output)) =>
      let ((_, files), backlog) := Tiered.flush (durableTier options.directory) state
      ⟨if backlog.failed = 0 then 0 else 1, output, "", files⟩

/-- Runs the program under its name, with arguments and an input, on files. -/
def run (name : String) (arguments : List String) (input : String) (files : FileSystem) : Outcome :=
  match Options.ofArguments name arguments with
  | (options, true, _) => serve options input files
  | (_, false, complaint) => ⟨1, #[], complaint, files⟩

end ChunkTree.Program
