import ChunkTree.FileSystem.Directories

/-!
# Logs

A log is a file to which texts are added.  It is opened for the first text, with the directories above
it, and stays open.
-/

namespace ChunkTree.Log

/-- Opens the file of a log, after the directories above it are made. -/
def openAt (path : String) : Action FileSystem Nat := do
  FileSystem.createParents path
  .of fun files => match files.reopen path with
    | .ok (number, files) => (.ok number, files)
    | .error reason => (.error (.fileSystem "failed to open file for writing" reason path), files)

/-- Adds a text to the log, given the number of its file if that is open. -/
def add (path : String) (text : Bytes) : Action (FileSystem × Option Nat) Unit := do
  let number ← match (← .state).2 with
    | some number => pure number
    | none => (openAt path).within .fst
  .update fun (files, _) => (files.append number text, some number)

end ChunkTree.Log
