import ChunkTree.Fault

/-!
# Tree shapes

A tree of depth `d` over chunks of size `c` with branching factor `b` covers a window of `c * b ^ d`
bytes.  Content takes the least depth whose window covers it, and a part of it that is shorter than
its window drops levels until it fills one.
-/

namespace ChunkTree

/-- A depth, and the window that a tree of this depth covers. -/
structure Shape where
  depth : Nat
  window : Nat
deriving DecidableEq

namespace Shape

variable (branches : Nat)

/-- Adds levels until the window covers the size.  It fails when the next window would not fit in a
word, and also where no level makes the window larger. -/
def cover (size : Nat) (shape : Shape) : Except Fault Shape :=
  if shape.window < size then
    if (wordLimit - 1) / branches < shape.window then .error .tooLarge
    else if shape.window < shape.window * branches then
      cover size ⟨shape.depth + 1, shape.window * branches⟩
    else .error .tooLarge
  else .ok shape
termination_by size - shape.window
decreasing_by omega

/-- Drops levels while the size is less than the window. -/
def settle (size : Nat) : Nat → Nat → Shape
  | 0, window => ⟨0, window⟩
  | depth + 1, window =>
    if size < window then settle size depth (window / branches) else ⟨depth + 1, window⟩

/-- The shape with its levels dropped as far as the size demands. -/
def normalize (size : Nat) (shape : Shape) : Shape := settle branches size shape.depth shape.window

end Shape

/-- The number of branches that windows of this width cut a size into. -/
def branchCount (window size : Nat) : Nat :=
  size / window + if size % window = 0 then 0 else 1

end ChunkTree
