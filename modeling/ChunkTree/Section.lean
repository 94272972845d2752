import ChunkTree.Action

/-!
# Sections

A section is read access to a range of bytes of some source: bytes in memory, a file, or a tree of
chunks.  A slice of a section is a section over the same source, so what happens to the source shows
in both.  Reading checks its range first, and only then turns to the source.
-/

namespace ChunkTree

variable {σ τ : Type}

/-- How to get `count` bytes from position `start` on, asked only inside the source and only for a
positive count. -/
abbrev Source (σ : Type) := (start count : Nat) → Action σ Bytes

/-- Bytes in memory as a source. -/
def Source.ofBytes (bytes : Bytes) : Source σ := fun start count => pure (bytes.slice start count)

/-- The range of a source that starts at `start` and has `size` bytes. -/
structure Section (σ : Type) where
  source : Source σ
  start : Nat
  size : Nat

namespace Section

/-- All of a source. -/
def whole (source : Source σ) (size : Nat) : Section σ := ⟨source, 0, size⟩

/-- A section over bytes in memory. -/
def ofBytes (bytes : Bytes) : Section σ := whole (Source.ofBytes bytes) bytes.size

/-- A section over bytes in memory, if there are any. -/
def ofBuffer (buffer : Option Bytes) : Except Fault (Section σ) :=
  match buffer with
  | some bytes => .ok (ofBytes bytes)
  | none => .error .noBuffer

/-- The bytes `[position, position + count)` of the section.  Reading nothing asks nothing of the
source. -/
def readAt (part : Section σ) (position count : Nat) : Action σ Bytes :=
  if part.size < position ∨ part.size - position < count then
    throw (.readOutside count position part.size)
  else if count = 0 then pure #[]
  else part.source (part.start + position) count

/-- All bytes of the section. -/
def readAll (part : Section σ) : Action σ Bytes := part.readAt 0 part.size

/-- The buffer with all bytes of the section laid over it from an offset on. -/
def readInto (part : Section σ) (buffer : Bytes) (offset : Nat) : Action σ Bytes := do
  return buffer.overlay (← part.readAll) offset

/-- The part `[start, stop)` of the section. -/
def slice (part : Section σ) (start stop : Nat) : Except Fault (Section σ) :=
  if stop < start ∨ part.size < stop then .error (.sliceOutside start stop part.size)
  else .ok ⟨part.source, part.start + start, stop - start⟩

/-- The `index`th of the parts, each of the window's width but the last, that a window cuts the
section into. -/
def branch (part : Section σ) (window index : Nat) : Section σ :=
  ⟨part.source, part.start + index * window, min window (part.size - index * window)⟩

/-- A section of a part of the state, read in the whole. -/
def within (place : Place σ τ) (part : Section τ) : Section σ :=
  ⟨fun start count => (part.source start count).within place, part.start, part.size⟩

end Section

end ChunkTree
