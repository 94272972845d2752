import ChunkTree.FileSystem

/-!
# Making and removing directories

A directory is made together with those above it that are missing, from the outermost on, unless there
are too many.  A directory is removed after everything below it.  A path with `..` in it may then no
longer lead to the directory, which stays.
-/

namespace ChunkTree.FileSystem

/-- No more directories than this are made at once. -/
def makeLimit : Nat := 1000

/-- How many directories are to be made for these names: `.` and `..` are there as soon as the others. -/
def undotted (names : List String) : Nat := names.countP fun name => name ≠ "." ∧ name ≠ ".."

/-- Follows names from a directory and answers how many directories are missing on the way.  A file
under the last name is left for the making to find.  Any other file is in the way, and there is no
looking for it behind too many missing directories.  Names after a NUL lead nowhere, but count. -/
def countMissing (files : FileSystem) : (here names : List String) → Except PathFault Nat
  | _, [] => .ok 0
  | here, name :: rest =>
    let next := here ++ [Fault.untilNul name]
    if name = "." then countMissing files here rest
    else if name = ".." then countMissing files here.dropLast rest
    else if nameLimit < (Fault.untilNul name).utf8ByteSize then .error .nameTooLong
    else match files.entries[next]? with
      | some .directory => countMissing files next rest
      | some (.file _) =>
        if rest = [] ∨ makeLimit < undotted rest then .ok (1 + undotted rest) else .error .notDirectory
      | none => .ok (undotted (name :: rest))

/-- Follows names from a directory and makes the directories that are missing.  Those made before it
fails stay. -/
def makeWay : (here names : List String) → FileSystem → Except PathFault Unit × FileSystem
  | _, [], files => (.ok (), files)
  | here, name :: rest, files =>
    if name = "." then makeWay here rest files
    else if name = ".." then makeWay here.dropLast rest files
    else if nameLimit < name.utf8ByteSize then (.error .nameTooLong, files)
    else
      let next := here ++ [name]
      match files.entries[next]? with
      | some .directory => makeWay next rest files
      | some (.file _) => (.error .taken, files)
      | none => makeWay next rest { files with entries := files.entries.insert next .directory }

/-- Makes the directory of a path that leads nowhere, and those above it. -/
def makeMissing (path : String) (files : FileSystem) : Except PathFault Unit × FileSystem :=
  let here := files.startOf path
  let names := Path.names (Fault.untilNul path)
  match files.countMissing here (Path.names path) with
  | .error reason => (.error reason, files)
  | .ok count =>
    if makeLimit < count then (.error .nameTooLong, files)
    else if names = [] then (.error .missing, files)
    else makeWay here names files

/-- Makes a directory and those above it. -/
def createDirectories (path : String) : Action FileSystem Unit := .of fun files =>
  let outcome :=
    if path = "" then (.error .invalid, files)
    else match files.find? path with
      | .ok (some (.directory _)) => (.ok (), files)
      | .ok (some _) => (.error .notDirectory, files)
      | .ok none => makeMissing path files
      | .error reason => (.error reason, files)
  match outcome with
  | (.ok (), files) => (.ok (), files)
  | (.error reason, files) => (.error (.fileSystem "cannot create directories" reason path), files)

/-- Whether a path leads anywhere, as an action. -/
def present (path : String) : Action FileSystem Bool := .of fun files =>
  match files.find? path with
  | .ok target => (.ok target.isSome, files)
  | .error reason => (.error (.fileSystem "status" reason path), files)

/-- Makes a directory unless the path leads somewhere already. -/
def ensureDirectory (path : String) : Action FileSystem Unit := do
  if !(← present path) then createDirectories path

/-- Removes a file, or a directory with nothing below it, and answers how many entries that were.  A
directory has to be named: it is not removed as `.` or `..`, and neither is the root. -/
def remove (path : String) : Action FileSystem Nat := .of fun files =>
  let refuse (reason : PathFault) : Except Fault Nat × FileSystem :=
    (.error (.fileSystem "cannot remove" reason path), files)
  match files.locate path with
  | .ok (.vacant _) | .error .missing => (.ok 0, files)
  | .error reason => refuse reason
  | .ok (.file names _) => (.ok 1, { files with entries := files.entries.erase names })
  | .ok (.directory names) =>
    match (Path.names (Fault.untilNul path)).getLast? with
    | none | some "." => refuse .invalid
    | some ".." => refuse .notEmpty
    | some _ => (.ok 1, { files with entries := files.entries.erase names })

/-- Removes what a path leads to, with everything below it, and answers how many entries that were.
What is below goes first, and stays away if the path itself cannot be removed. -/
def removeAll (path : String) : Action FileSystem Nat := do
  let files ← .state
  match files.locate path with
  | .ok (.directory names) =>
    let left := files.entries.filter fun other _ => other = names ∨ !below names other
    .update ({ · with entries := left })
    return files.entries.size - left.size + (← remove path)
  | .error .nameTooLong => throw (.fileSystem "cannot remove all" .nameTooLong path)
  | _ => remove path

/-- Makes the directories above a path. -/
def createParents (path : String) : Action FileSystem Unit :=
  if Path.parent path = "" then pure () else createDirectories (Path.parent path)

/-- Replaces the bytes at a path, after the directories above it are made. -/
def write (path : String) (bytes : Bytes) : Action FileSystem Unit := do
  createParents path
  .of fun files => match files.create path with
    | .ok (number, files) => (.ok (), files.setContent number bytes)
    | .error _ => (.ok (), files)

end ChunkTree.FileSystem
