import ChunkTree.FileSection

/-!
# Input files

A file that is open for reading has a position in the file, a space for bytes that were read ahead, and
flags, which a short read puts up and which keep the next read from starting.  All sections over the
file share them.  So a read of a section first takes the flags down and moves to its own place, which
drops what was read ahead.
-/

namespace ChunkTree

/-- A file that is open for reading. -/
structure InputFile where
  path : String
  number : Nat
  /-- Where the next bytes are taken from the file. -/
  position : Nat
  /-- The bytes before that position that were taken from the file and nobody has asked for yet. -/
  ahead : Bytes
  /-- A read has come to the end of the file. -/
  ended : Bool
  /-- A read has got fewer bytes than it asked for. -/
  failed : Bool

namespace InputFile

/-- So many bytes are taken from the file at once, unless more are asked for. -/
def space : Nat := 8191

/-- A file of which nothing has been read. -/
def opened (path : String) (number : Nat) : InputFile := ⟨path, number, 0, #[], false, false⟩

variable (file : InputFile) (files : FileSystem)

/-- Takes the flags down. -/
def clear : InputFile := { file with ended := false, failed := false }

/-- Moves to a position and drops what was read ahead, unless a read has failed. -/
def seek (position : Nat) : InputFile :=
  if file.failed then { file with ended := false }
  else { file with position := position, ahead := #[], ended := false }

/-- Takes at most `count` bytes: those that were read ahead, and then those in the file. -/
def take (count : Nat) : Bytes × InputFile :=
  let kept := file.ahead.extract 0 count
  let missing := count - kept.size
  if missing = 0 then (kept, { file with ahead := file.ahead.extract count file.ahead.size })
  else
    let asked := if space < count then missing else space
    let block := (files.content file.number).slice file.position asked
    (kept ++ block.extract 0 missing,
      { file with position := file.position + block.size, ahead := block.extract missing block.size })

/-- Reads `count` bytes, or what is left of the file, which puts both flags up; nothing if a flag is up
already. -/
def read (count : Nat) : Bytes × InputFile :=
  if file.ended ∨ file.failed then (#[], { file with failed := true })
  else
    match file.take files count with
    | (bytes, file) =>
      if bytes.size < count then (bytes, { file with ended := true, failed := true }) else (bytes, file)

end InputFile

/-- An open file as a source, which takes its bytes from wherever they are at each moment. -/
def Source.ofInput : Source (FileSystem × InputFile) := fun start count => .of fun (files, file) =>
  match (file.clear.seek start).read files count with
  | (bytes, file) =>
    if bytes.size = count then (.ok bytes, files, file) else (.error (.shortRead file.path), files, file)

/-- Opens a file for reading, with a section over all of it.  A directory opens too, but has no size. -/
def Section.ofInput (path : String) :
    Action FileSystem (InputFile × Section (FileSystem × InputFile)) := do
  let files ← .state
  match files.locate path with
  | .ok (.file _ number) =>
    return (.opened path number, .whole Source.ofInput (files.content number).size)
  | .ok (.directory _) => throw (.fileSizeUnknown path)
  | .ok (.vacant _) | .error _ => throw (.fileUnopened path)

end ChunkTree
