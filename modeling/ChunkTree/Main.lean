import ChunkTree.Program

/-!
# Running the program on a machine

The files that a line names are brought in before the shell takes the line, and what the line changed
is written back after it.
-/

namespace ChunkTree.Machine

/-- The path of names from the root. -/
def pathOf (names : List String) : String := "/" ++ Path.ofNames names

/-- Brings in the directories and the file that names lead to from a directory. -/
def follow : (here names : List String) → FileSystem → IO FileSystem
  | _, [], files => return files
  | here, name :: rest, files => do
    if name = "." then follow here rest files
    else if name = ".." then follow here.dropLast rest files
    else
      let next := here ++ [name]
      let path := (← IO.currentDir) / pathOf next
      if ← path.isDir then follow next rest (files.adoptDirectory next)
      else if ← path.pathExists then return files.adopt next (← IO.FS.readBinFile path).data
      else return files

/-- Brings in what a path leads to. -/
def load (files : FileSystem) (path : String) : IO FileSystem :=
  follow (files.startOf path) (Path.names path) files

/-- Brings in everything below a directory. -/
partial def loadBelow (files : FileSystem) (names : List String) : IO FileSystem := do
  let path := (← IO.currentDir) / pathOf names
  if ← path.isDir then
    (← path.readDir).foldlM (fun files entry => do
      let inner := names ++ [entry.fileName]
      loadBelow (← follow names [entry.fileName] files) inner) files
  else return files

/-- Writes back what changed. -/
def save (older newer : FileSystem) : IO Unit :=
  (newer.changesSince older).forM fun (names, content) =>
    match content with
    | none => IO.FS.createDirAll (pathOf names)
    | some bytes => IO.FS.writeBinFile (pathOf names) ⟨bytes⟩

/-- Shows output. -/
def display (output : Bytes) : IO Unit := do
  let stream ← IO.getStdout
  stream.write ⟨output⟩
  stream.flush

/-- Lets the shell take lines until it ends. -/
partial def converse (shell : Shell Program.State) (state : Program.State) : IO Program.State := do
  let line ← (← IO.getStdin).getLine
  if line.isEmpty then return state
  let text := line.toList
  let text := if text.getLast? = some '\n' then text.dropLast else text
  let ((memory, files), backlog) := state
  let files ← (Shell.words text).foldlM load files
  let (outcome, (state, output)) := (shell.take text).run (((memory, files), backlog), #[])
  display output
  save files state.1.2
  match outcome with
  | .ok true => converse shell state
  | _ => return state

/-- Serves the input, and answers with the exit code. -/
def serve (options : Options) : IO UInt32 := do
  let here := Path.names (← IO.currentDir).toString
  let files ← load { FileSystem.empty with here := here } (pathOf here)
  let files ← load files options.directory
  let files ← loadBelow files (files.startOf options.directory ++ Path.names options.directory)
  match (Program.prepare options).run files with
  | (.error fault, _) =>
    IO.eprint (Program.startComplaint (options.logFile = "") fault)
    return 1
  | (.ok chunker, opened) =>
    save files opened
    display (Bytes.ofText Shell.prompt)
    let state ← converse (Program.shell chunker options.directory) ((∅, opened), Backlog.empty)
    let state := Tiered.flush (Program.durableTier options.directory) state
    save opened state.1.2
    return if state.2.failed = 0 then 0 else 1

end ChunkTree.Machine

open ChunkTree in
/-- Runs the shell with the given arguments. -/
def main (arguments : List String) : IO UInt32 := do
  match Options.ofArguments (← IO.appPath).toString arguments with
  | (options, true, _) => Machine.serve options
  | (_, false, complaint) =>
    IO.eprint complaint
    return 1
