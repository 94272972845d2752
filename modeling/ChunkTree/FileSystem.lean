import Std.Data.ExtTreeMap
import ChunkTree.Action
import ChunkTree.Path

/-!
# The file system

A tree of directories and files.  A name leads to a file by a number, and the content belongs to the
number: whoever has opened a file keeps reading it after its name is gone, and sees what is written to
it in place.
-/

namespace ChunkTree

/-- What a name leads to. -/
inductive Entry where
  | directory
  | file (number : Nat)
deriving DecidableEq

/-- What is at the end of a path whose last name stands in a directory. -/
inductive Target where
  | directory (names : List String)
  | file (names : List String) (number : Nat)
  /-- Nothing, in a directory that is there. -/
  | vacant (names : List String)
deriving DecidableEq

/-- Directories and files below a root.  Each entry is under its names from the root on. -/
structure FileSystem where
  /-- The directory in which paths start that do not start at the root. -/
  here : List String
  entries : Std.ExtTreeMap (List String) Entry
  contents : Std.ExtTreeMap Nat Bytes
  /-- The number for the next file. -/
  next : Nat

namespace FileSystem

/-- A root without entries. -/
def empty : FileSystem := ⟨[], ∅, ∅, 0⟩

/-- The longest name, in bytes. -/
def nameLimit : Nat := 255

/-- Paths are shorter than this, in bytes. -/
def pathLimit : Nat := 4096

variable (files : FileSystem)

/-- Follows names from a directory.  All but the last have to lead to directories, and so has the last
if `directoryWanted`. -/
def walk (directoryWanted : Bool) : (here names : List String) → Except PathFault Target
  | here, [] => .ok (.directory here)
  | here, name :: rest =>
    if name = "." then walk directoryWanted here rest
    else if name = ".." then walk directoryWanted here.dropLast rest
    else if nameLimit < name.utf8ByteSize then .error .nameTooLong
    else
      let next := here ++ [name]
      match files.entries[next]? with
      | some .directory => walk directoryWanted next rest
      | some (.file number) =>
        if rest = [] ∧ !directoryWanted then .ok (.file next number) else .error .notDirectory
      | none => if rest = [] then .ok (.vacant next) else .error .missing

/-- Where a path starts. -/
def startOf (path : String) : List String := if Path.isAbsolute path then [] else files.here

/-- What a path leads to.  The path ends at its first NUL. -/
def locate (path : String) : Except PathFault Target :=
  let path := Fault.untilNul path
  if path = "" then .error .missing
  else if pathLimit ≤ path.utf8ByteSize then .error .nameTooLong
  else files.walk (Path.endsInSlash path) (files.startOf path) (Path.names path)

/-- What a path leads to, if it leads anywhere.  A name in a file leads nowhere.  A path that cannot be
followed for its length has no answer. -/
def find? (path : String) : Except PathFault (Option Target) :=
  match files.locate path with
  | .ok (.vacant _) | .error .missing | .error .notDirectory => .ok none
  | .ok target => .ok (some target)
  | .error reason => .error reason

/-- Whether one list of names leads through another. -/
def below (directory names : List String) : Bool := directory.isPrefixOf names

/-- The bytes of a file. -/
def content (number : Nat) : Bytes := files.contents.getD number #[]

/-- Replaces the bytes of a file in place. -/
def setContent (number : Nat) (bytes : Bytes) : FileSystem :=
  { files with contents := files.contents.insert number bytes }

/-- Adds bytes to the end of a file. -/
def append (number : Nat) (bytes : Bytes) : FileSystem :=
  files.setContent number (files.content number ++ bytes)

@[simp]
theorem content_setContent (number : Nat) (bytes : Bytes) :
    (files.setContent number bytes).content number = bytes := by
  simp [content, setContent]

@[simp]
theorem content_append (number : Nat) (bytes : Bytes) :
    (files.append number bytes).content number = files.content number ++ bytes := by
  simp [append]

/-- Opens a file for writing, behind what it has or with its content gone; a vacant name gets a new
file. -/
def openFor (adding : Bool) (path : String) : Except PathFault (Nat × FileSystem) := do
  match ← files.locate path with
  | .directory _ => .error .isDirectory
  | .file _ number => .ok (number, if adding then files else files.setContent number #[])
  | .vacant names =>
    if Path.endsInSlash (Fault.untilNul path) then .error .isDirectory
    else .ok (files.next,
      { here := files.here
        entries := files.entries.insert names (.file files.next)
        contents := files.contents.insert files.next #[]
        next := files.next + 1 })

/-- Opens a file for writing, with its content gone. -/
def create (path : String) : Except PathFault (Nat × FileSystem) := files.openFor false path

/-- Opens a file for writing behind what it has. -/
def reopen (path : String) : Except PathFault (Nat × FileSystem) := files.openFor true path

/-- Gives the file at one path the name of another, and takes that name from what had it; a directory
keeps its name. -/
def rename (source target : String) : Except PathFault FileSystem := do
  match ← files.locate source, ← files.locate target with
  | _, .directory _ => .error .isDirectory
  | .file old number, .file new _ | .file old number, .vacant new =>
    if Path.endsInSlash (Fault.untilNul target) then .error .notDirectory
    else .ok { files with entries := (files.entries.erase old).insert new (.file number) }
  | .directory _, .file .. => .error .notDirectory
  | .directory _, .vacant _ => .error .invalid
  | .vacant _, _ => .error .missing

/-- Everything below a directory, with the content of files, in the order of their paths from there. -/
def listing (path : String) : List (String × Option Bytes) :=
  match files.locate path with
  | .ok (.directory names) =>
    let inside := files.entries.toList.filter fun (other, _) => below names other && other ≠ names
    let named := inside.map fun (other, entry) =>
      (Path.ofNames (other.drop names.length),
        match entry with
        | .directory => none
        | .file number => some (files.content number))
    named.mergeSort fun first second => (compare first.1 second.1).isLE
  | _ => []

/-- Puts a file with these bytes under names from the root, in place if there is one already. -/
def adopt (names : List String) (bytes : Bytes) : FileSystem :=
  match files.entries[names]? with
  | some (.file number) => files.setContent number bytes
  | _ =>
    { files with
      entries := files.entries.insert names (.file files.next)
      contents := files.contents.insert files.next bytes
      next := files.next + 1 }

/-- Puts a directory under names from the root. -/
def adoptDirectory (names : List String) : FileSystem :=
  { files with entries := files.entries.insert names .directory }

/-- The entries that are not the same in an older state, with the content of files. -/
def changesSince (older : FileSystem) : List (List String × Option Bytes) :=
  files.entries.toList.filterMap fun (names, entry) =>
    match entry, older.entries[names]? with
    | .directory, some .directory => none
    | .directory, _ => some (names, none)
    | .file number, some (.file old) =>
      if files.content number = older.content old then none else some (names, some (files.content number))
    | .file number, _ => some (names, some (files.content number))

/-- The bytes of the file at a path, none if there is no such file. -/
def read (path : String) : Bytes :=
  match files.locate path with
  | .ok (.file _ number) => files.content number
  | _ => #[]

end FileSystem

end ChunkTree
