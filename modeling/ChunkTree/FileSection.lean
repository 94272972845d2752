import ChunkTree.FileSystem
import ChunkTree.Section

/-!
# Sections over files

A section over a file has the size that the file had at opening.  Each read sees the bytes that the
file has at that moment, and fails if they no longer reach as far as asked.
-/

namespace ChunkTree

/-- The bytes of an open file as a source, read as they are at each moment. -/
def Source.ofFile (path : String) (number : Nat) : Source FileSystem := fun start count => do
  let bytes := (← .state).content number
  if bytes.size < start + count then throw (.shortRead path) else return bytes.slice start count

/-- Opens a section over all of a file.  A directory opens too, but has no size. -/
def Section.ofFile (path : String) : Action FileSystem (Section FileSystem) := do
  let files ← .state
  match files.locate path with
  | .ok (.file _ number) =>
    return .whole (Source.ofFile path number) (files.content number).size
  | .ok (.directory _) => throw (.fileSizeUnknown path)
  | .ok (.vacant _) | .error _ => throw (.fileUnopened path)

/-- Opening a section over a path leaves all files, and succeeds with a file. -/
theorem Section.run_ofFile (path : String) (files : FileSystem) :
    (∃ fault, (Section.ofFile path).run files = (.error fault, files)) ∨
      ∃ names number, files.locate path = .ok (.file names number) ∧
        (Section.ofFile path).run files =
          (.ok (.whole (Source.ofFile path number) (files.content number).size), files) := by
  rw [Section.ofFile, Action.run_bind, Action.run_state]
  rcases led : files.locate path with reason | (names | ⟨names, number⟩ | names)
  · exact .inl ⟨.fileUnopened path, by simp only [led]; rfl⟩
  · exact .inl ⟨.fileSizeUnknown path, by simp only [led]; rfl⟩
  · exact .inr ⟨names, number, rfl, by simp only [led]; rfl⟩
  · exact .inl ⟨.fileUnopened path, by simp only [led]; rfl⟩

end ChunkTree
