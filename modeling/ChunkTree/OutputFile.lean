import ChunkTree.FileSystem

/-!
# Output files

A file that is open for writing has a space where short runs of bytes wait.  All that waits goes into
the file together with the first run that is long or fills the space, and otherwise when the file is
closed.  Until then whoever reads the file does not see it.  As long as there is room, no byte is lost
and none changes its place: what is in the file and what waits, one after the other, is what was
written.  Where the room ends, a run that goes into the file is cut and refused, but what is cut at
closing is lost without a word.
-/

namespace ChunkTree

/-- A file that is open for writing. -/
structure OutputFile where
  number : Nat
  /-- The bytes taken that are not in the file yet. -/
  waiting : Bytes
  /-- How many more bytes the file can take, if there is a bound. -/
  room : Option Nat

namespace OutputFile

/-- As many bytes as this do not wait. -/
def space : Nat := 8191

/-- A run of this length does not wait, even if there is space for it. -/
def longRun : Nat := 1024

/-- A file from which nothing waits. -/
def opened (number : Nat) (room : Option Nat) : OutputFile := ⟨number, #[], room⟩

variable (files : FileSystem) (file : OutputFile)

/-- As much of a run of bytes as there is room for. -/
def fitting (bytes : Bytes) : Bytes :=
  match file.room with
  | none => bytes
  | some room => bytes.extract 0 room

/-- Takes bytes, and answers whether it could. -/
def write (bytes : Bytes) : FileSystem × OutputFile × Bool :=
  let waiting := file.waiting ++ bytes
  if bytes.size < longRun ∧ waiting.size < space then (files, { file with waiting := waiting }, true)
  else
    let fitting := file.fitting waiting
    (files.append file.number fitting,
      opened file.number (file.room.map (· - fitting.size)), fitting.size = waiting.size)

/-- Puts what waits into the file, as far as there is room. -/
def close : FileSystem := files.append file.number (file.fitting file.waiting)

/-- All that was written. -/
def written : Bytes := files.content file.number ++ file.waiting

/-- The file stays the same file. -/
@[simp]
theorem number_write (bytes : Bytes) : (file.write files bytes).2.1.number = file.number := by
  simp only [write]
  split <;> rfl

/-- There is room for the file to become as long as this. -/
def Roomy (limit : Nat) : Prop :=
  ∀ room, file.room = some room → limit ≤ (files.content file.number).size + room

section Roomy

variable {files file} {limit : Nat} (roomy : file.Roomy files limit)
include roomy

theorem fitting_of_roomy {bytes : Bytes}
    (fits : (files.content file.number).size + bytes.size ≤ limit) : file.fitting bytes = bytes := by
  rw [fitting]
  rcases bound : file.room with _ | room
  · rfl
  · have enough := roomy room bound
    exact Array.extract_eq_self_of_le (by omega)

/-- Closing a file leaves in it all that was written. -/
theorem content_close (fits : (file.written files).size ≤ limit) :
    (file.close files).content file.number = file.written files := by
  rw [written, Array.size_append] at fits
  rw [close, fitting_of_roomy roomy fits, FileSystem.content_append, written]

/-- Where there is room for everything, everything is taken, and comes after what was written before. -/
theorem write_of_roomy {bytes : Bytes} (fits : (file.written files).size + bytes.size ≤ limit) :
    (file.write files bytes).2.2 = true ∧
      (file.write files bytes).2.1.written (file.write files bytes).1 = file.written files ++ bytes ∧
      (file.write files bytes).2.1.Roomy (file.write files bytes).1 limit := by
  have all : file.fitting (file.waiting ++ bytes) = file.waiting ++ bytes := by
    refine fitting_of_roomy roomy ?_
    rw [written, Array.size_append] at fits
    rw [Array.size_append]
    omega
  simp only [write, all]
  split
  · exact ⟨rfl, (Array.append_assoc ..).symm, roomy⟩
  · refine ⟨by simp, by simp [written, opened], fun room bound => ?_⟩
    obtain ⟨before, same, rfl⟩ := Option.map_eq_some_iff.mp bound
    have enough := roomy before same
    simp only [opened, FileSystem.content_append, Array.size_append]
    omega

end Roomy

end OutputFile

end ChunkTree
