import ChunkTree.FileSystem.Directories
import ChunkTree.OutputFile
import ChunkTree.Store

/-!
# Stores on disk

Each chunk is a file that holds its data, named by its key: the first three bytes of the key name
directories, two digits each, and the rest names the file.  A key of at most three bytes names a file
in the base directory itself.  A chunk is written beside its place and then moved there, so that its
place never has part of it; what has a place already is not written again.
-/

namespace ChunkTree.Disk

variable (base : String)

/-- The directory for the file of a key. -/
def directoryOf (key : Key) : String :=
  let hex := Hex.encode key.bytes.toList
  if hex.length ≤ 6 then base
  else
    let outer := Path.child base (String.ofList (hex.take 2))
    let middle := Path.child outer (String.ofList ((hex.drop 2).take 2))
    Path.child middle (String.ofList ((hex.drop 4).take 2))

/-- The name of the file of a key in its directory. -/
def nameOf (key : Key) : String :=
  let hex := Hex.encode key.bytes.toList
  String.ofList (if hex.length ≤ 6 then hex else hex.drop 6)

/-- The path of the file of a key. -/
def pathOf (key : Key) : String := Path.child (directoryOf base key) (nameOf key)

/-- Opens a store: its directory is made unless the path leads somewhere already. -/
def openAt : Action FileSystem Unit :=
  tryCatch (FileSystem.ensureDirectory base) fun cause => throw (.baseUncreated cause)

/-- Whether the file of a key is there. -/
def has (key : Key) : Action FileSystem Bool := FileSystem.present (pathOf base key)

/-- Moves the file beside the place of a key to the place. -/
def move (key : Key) : Action FileSystem Unit := .of fun files =>
  let place := pathOf base key
  let beside := place ++ ".tmp"
  match files.rename beside place with
  | .ok files => (.ok (), files)
  | .error _ => (.error (.chunkUnplaced key), ((FileSystem.remove beside).run files).2)

/-- Writes data to a path through a file beside it. -/
def writeFile (key : Key) (data : Bytes) : Action FileSystem Unit := .of fun files =>
  let beside := pathOf base key ++ ".tmp"
  match files.create beside with
  | .error _ => (.error (.chunkFileUncreated beside), files)
  | .ok (number, files) => (move base key).run (files.setContent number data)

/-- Puts a chunk, unless its place is taken, given how to make a directory and how to write a file.
Requests are refused. -/
def putBy (ensure : String → Action FileSystem Unit) (write : Key → Bytes → Action FileSystem Unit)
    (chunk : Chunk) : Action FileSystem Unit := do
  match chunk.data with
  | none => throw (.requestRefused .disk)
  | some data =>
    if ← has base chunk.key then return
    tryCatch (ensure (Path.trimmed (directoryOf base chunk.key)))
      fun cause => throw (.directoryUncreated cause)
    write chunk.key data

/-- Writes the file of a chunk, unless its place is taken. -/
def put : Chunk → Action FileSystem Unit := putBy base FileSystem.ensureDirectory (writeFile base)

/-- What goes wrong with a write although nothing is in its way. -/
inductive Trouble where
  /-- The directory cannot be made. -/
  | unmade (cause : Fault)
  /-- The file beside the place cannot be made. -/
  | uncreated
  /-- There is room only for so many bytes. -/
  | full (room : Nat)
  /-- The file cannot be moved to its place. -/
  | unmoved

/-- Makes a directory, unless that goes wrong. -/
def Trouble.ensureDirectory (trouble : Trouble) (path : String) : Action FileSystem Unit :=
  match trouble with
  | unmade cause => throw cause
  | _ => FileSystem.ensureDirectory path

/-- Writes data as `writeFile` does, where something goes wrong.  Nobody notices what is lost at
closing the file. -/
def writeFileUnder (trouble : Trouble) (key : Key) (data : Bytes) : Action FileSystem Unit :=
  .of fun files =>
    let beside := pathOf base key ++ ".tmp"
    match trouble, files.create beside with
    | .uncreated, _ | _, .error _ => (.error (.chunkFileUncreated beside), files)
    | .full room, .ok (number, files) =>
      let (files, file, taken) := (OutputFile.opened number (some room)).write files data
      if taken then (move base key).run (file.close files)
      else (.error (.chunkFileUncreated beside true), file.close files)
    | _, .ok (number, files) =>
      (.error (.chunkUnplaced key),
        ((FileSystem.remove beside).run (files.setContent number data)).2)

/-- The chunk in the file of a key, with the size that its header states. -/
def get (key : Key) : Action FileSystem (Option Chunk) := do
  let files ← .state
  match files.locate (pathOf base key) with
  | .ok (.file _ number) =>
    let data := files.content number
    let size ← .lift (Header.decode data)
    return some ⟨key, some data, size⟩
  | .ok (.directory _) => throw .directoryRead
  | .ok (.vacant _) | .error _ =>
    if ← has base key then throw (.chunkFileUnopened (pathOf base key)) else return none

/-- Removes everything in the store and makes its directory anew. -/
def clear : Action FileSystem Unit := do
  let _ ← FileSystem.removeAll base
  FileSystem.ensureDirectory base

/-- The files below a directory as a store. -/
def store : Store FileSystem := ⟨put base, get base⟩

/-- The store while something may go wrong with what is put. -/
def storeUnder (trouble? : Option Trouble) : Store FileSystem :=
  match trouble? with
  | none => store base
  | some trouble => ⟨putBy base trouble.ensureDirectory (writeFileUnder base trouble), get base⟩

end ChunkTree.Disk
