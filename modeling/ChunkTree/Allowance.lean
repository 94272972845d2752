import ChunkTree.Archive

/-!
# Allowances

An allowance says how long a run of bytes may be that is held at once.  Splitting holds the chunk of one
leaf, streaming one piece, and reading all that is read.  Sizes that content only claims to have are
checked before anything of it is fetched.
-/

namespace ChunkTree

variable {σ : Type}

/-- How long a run of bytes may be that is held at once, if there is a bound. -/
abbrev Allowance := Option Nat

namespace Allowance

/-- The allowance where nothing else is said: sixteen gibibytes. -/
def usual : Allowance := some 17179869184

/-- A run of bytes longer than this is refused for its length, however much may be held. -/
def longestRun : Nat := 9223372036854775807

variable (allowance : Allowance)

/-- Fails if a run of bytes would be too long. -/
def check (size : Nat) : Action σ Unit :=
  match allowance with
  | none => pure ()
  | some most =>
    if size ≤ most then pure ()
    else if size ≤ longestRun then throw .memoryExhausted
    else throw .runTooLong

/-- Fails if no tree covers content of this size, or the chunk of its longest leaf would be too long. -/
def checkTree (chunker : Chunker) (size : Nat) : Action σ Unit := do
  let _ ← .lift (chunker.shapeOf size)
  allowance.check (Header.length + chunker.longestLeaf size)

end Allowance

/-- All bytes of a section, if they may be held. -/
def Section.readAllowed (part : Section σ) (allowance : Allowance) : Action σ Bytes := do
  allowance.check part.size
  part.readAll

/-- The buffer with all bytes of a section laid over it from an offset on, if the buffer may grow so far.
Positions are words: the first comes again after the last, and what would lie before that is lost. -/
def Section.readIntoAllowed (part : Section σ) (allowance : Allowance) (buffer : Bytes) (offset : Nat) :
    Action σ Bytes := do
  let stop := (offset + part.size) % wordLimit
  if buffer.size < stop then allowance.check stop
  if offset + part.size < wordLimit then part.readInto buffer offset
  else
    let bytes ← part.readAll
    return buffer.overlay (bytes.extract (wordLimit - offset)) 0

namespace Archive

variable (archive : Archive σ) (allowance : Allowance)

/-- Keeps the content of a section, if its leaves may be held. -/
def keepAllowed (part : Section σ) : Action σ Key := do
  allowance.checkTree archive.chunker part.size
  archive.keep part

/-- All the content under a root key, if it may be held. -/
def readAllowed (root : Key) : Action σ Bytes := do
  (← archive.openAt root).readAllowed allowance

/-- Writes the content under a root key, if a piece of it may be held. -/
def readToAllowed (root : Key) (sink : Sink σ) : Action σ Nat := do
  let part ← archive.openAt root
  allowance.check (archive.pieceOf part)
  archive.writeOut part sink

end Archive

end ChunkTree
