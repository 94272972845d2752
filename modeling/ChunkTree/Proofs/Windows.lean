import ChunkTree.Chunker
import ChunkTree.Proofs.Pieces

/-!
# Windows of a tree

The window of a tree is its chunk size times a power of its branching factor
(`Chunker.window`).  No division on the way down rounds, and the shape that covers some content has
the window of its depth, reaches the end of the content, and fits in a word.  No shallower window
reaches the end (`Chunker.shapeOf_of_le`), and dropping levels ends at the window of its depth too
(`Chunker.settle_window`).
-/

namespace ChunkTree

/-- A window passes the comparison exactly if the next one is a word. -/
theorem Shape.le_div_iff_mul_lt_wordLimit {branches : Nat} (two : 2 ≤ branches)
    (window : Nat) :
    window ≤ (wordLimit - 1) / branches ↔ window * branches < wordLimit := by
  rw [Nat.le_div_iff_mul_le (by omega)]
  exact Nat.le_sub_one_iff_lt (Nat.zero_lt_succ _)

theorem Shape.settle_of_lt {branches size depth window : Nat} (short : size < window) :
    settle branches size (depth + 1) window = settle branches size depth (window / branches) := by
  rw [settle, if_pos short]

theorem Shape.settle_of_le {branches size depth window : Nat} (full : window ≤ size) :
    settle branches size (depth + 1) window = ⟨depth + 1, window⟩ := by
  rw [settle, if_neg (Nat.not_lt_of_le full)]

namespace Chunker

variable (chunker : Chunker)

/-- The window of a tree of some depth. -/
def window (depth : Nat) : Nat := chunker.chunkSize * chunker.branches ^ depth

@[simp]
theorem window_zero : chunker.window 0 = chunker.chunkSize := by
  simp [window]

theorem window_succ (depth : Nat) :
    chunker.window (depth + 1) = chunker.window depth * chunker.branches := by
  rw [window, window, Nat.pow_succ, Nat.mul_assoc]

/-- A level down, the window is exactly the part that a branch covers. -/
@[simp]
theorem window_succ_div (depth : Nat) :
    chunker.window (depth + 1) / chunker.branches = chunker.window depth := by
  have branches := chunker.two_le_branches
  rw [window_succ, Nat.mul_div_cancel _ (by omega)]

theorem keySize_pos : 0 < chunker.keySize := chunker.digestLength_pos

variable {chunker}

theorem chunkSize_eq (small : chunker.keySize * chunker.branches < wordLimit) :
    chunker.chunkSize = chunker.keySize * chunker.branches :=
  Nat.mod_eq_of_lt small

theorem chunkSize_pos (small : chunker.keySize * chunker.branches < wordLimit) :
    0 < chunker.chunkSize := by
  have branches := chunker.two_le_branches
  rw [chunkSize_eq small]
  exact Nat.mul_pos chunker.digestLength_pos (by omega)

theorem small_of_square (small : chunker.keySize * chunker.branches * chunker.branches < wordLimit) :
    chunker.keySize * chunker.branches < wordLimit := by
  have branches := chunker.two_le_branches
  exact Nat.lt_of_le_of_lt (Nat.le_mul_of_pos_right _ (by omega)) small

theorem pieceSize_eq (small : chunker.keySize * chunker.branches * chunker.branches < wordLimit) :
    chunker.pieceSize = chunker.chunkSize * chunker.branches := by
  rw [pieceSize, chunkSize_eq (small_of_square small), Nat.mod_eq_of_lt small]

theorem window_pos (positive : 0 < chunker.chunkSize) (depth : Nat) : 0 < chunker.window depth := by
  have branches := chunker.two_le_branches
  exact Nat.mul_pos positive (Nat.pow_pos (by omega))

theorem window_mono {low high : Nat} (deeper : low ≤ high) :
    chunker.window low ≤ chunker.window high := by
  have branches := chunker.two_le_branches
  exact Nat.mul_le_mul_left _ (Nat.pow_le_pow_right (by omega) deeper)

/-- Wider windows are cut into narrower ones without a rest. -/
theorem window_dvd {low high : Nat} (deeper : low ≤ high) :
    chunker.window low ∣ chunker.window high :=
  Nat.mul_dvd_mul_left _ (Nat.pow_dvd_pow _ deeper)

theorem window_lt_window_succ (positive : 0 < chunker.chunkSize) (depth : Nat) :
    chunker.window depth < chunker.window (depth + 1) := by
  have branches := chunker.two_le_branches
  have wide := window_pos positive depth
  rw [window_succ]
  exact (Nat.lt_mul_iff_one_lt_right wide).mpr branches

/-- Only shallower places have windows that are not wider. -/
theorem le_of_window_le (positive : 0 < chunker.chunkSize) {low high : Nat}
    (narrow : chunker.window low ≤ chunker.window high) : low ≤ high := by
  by_contra deeper
  have less := window_lt_window_succ positive high
  have wide : chunker.window (high + 1) ≤ chunker.window low := window_mono (by omega)
  omega

/-- The window of a depth in key lengths. -/
theorem window_eq_pow (small : chunker.keySize * chunker.branches < wordLimit) (depth : Nat) :
    chunker.window depth = chunker.keySize * chunker.branches ^ (depth + 1) := by
  rw [window, chunkSize_eq small, Nat.pow_succ', Nat.mul_assoc]

theorem window_one (small : chunker.keySize * chunker.branches < wordLimit) :
    chunker.window 1 = chunker.keySize * chunker.branches * chunker.branches := by
  rw [window_eq_pow small, Nat.pow_two, Nat.mul_assoc]

/-- No more windows than a node has branches reach the end of the window above. -/
theorem branchCount_le_branches (positive : 0 < chunker.chunkSize) {depth size : Nat}
    (reach : size ≤ chunker.window (depth + 1)) :
    branchCount (chunker.window depth) size ≤ chunker.branches := by
  rw [branchCount_le_iff (window_pos positive depth), Nat.mul_comm, ← window_succ]
  exact reach

private theorem cover_spec {size : Nat} (start : Shape) {shape : Shape}
    (exact : start.window = chunker.window start.depth) (word : start.window < wordLimit)
    (covered : Shape.cover chunker.branches size start = .ok shape) :
    shape.window = chunker.window shape.depth ∧ size ≤ shape.window ∧ shape.window < wordLimit := by
  have branches := chunker.two_le_branches
  fun_induction Shape.cover chunker.branches size start with
  | case1 start short large => cases covered
  | case2 start short fits grows ih =>
      refine ih ?_ ?_ covered
      · rw [window_succ, exact]
      · exact (Shape.le_div_iff_mul_lt_wordLimit branches _).mp (Nat.le_of_not_lt fits)
  | case3 start short fits stays => cases covered
  | case4 start reaches =>
      cases covered
      exact ⟨exact, Nat.le_of_not_lt reaches, word⟩

/-- The shape that covers a size has the window of its depth, which reaches as far and fits in a
word. -/
theorem window_of_shapeOf {size : Nat} {shape : Shape}
    (covered : chunker.shapeOf size = .ok shape) :
    shape.window = chunker.window shape.depth ∧ size ≤ shape.window ∧ shape.window < wordLimit :=
  cover_spec ⟨0, chunker.chunkSize⟩ (by simp) (Nat.mod_lt _ (by decide)) covered

/-- What a shape covers can stand below a node of the next depth. -/
theorem le_window_succ_of_shapeOf {size : Nat} {shape : Shape}
    (covered : chunker.shapeOf size = .ok shape) : size ≤ chunker.window (shape.depth + 1) := by
  obtain ⟨window, reach, -⟩ := window_of_shapeOf covered
  rw [window] at reach
  exact Nat.le_trans reach (window_mono (Nat.le_succ shape.depth))

/-- A window that does not reach the size is shallower than one that does. -/
private theorem succ_le_of_window_lt {start : Shape} {depth size : Nat}
    (exact : start.window = chunker.window start.depth) (short : start.window < size)
    (reach : size ≤ chunker.window depth) (below : start.depth ≤ depth) :
    start.depth + 1 ≤ depth := by
  refine Nat.lt_of_le_of_ne below fun same => ?_
  rw [exact, same] at short
  omega

private theorem cover_of_le (positive : 0 < chunker.chunkSize) {depth size : Nat}
    (reach : size ≤ chunker.window depth) (fits : chunker.window depth < wordLimit) (start : Shape)
    (exact : start.window = chunker.window start.depth) (below : start.depth ≤ depth) :
    ∃ shape, Shape.cover chunker.branches size start = .ok shape ∧ shape.depth ≤ depth := by
  have branches := chunker.two_le_branches
  fun_induction Shape.cover chunker.branches size start with
  | case1 start short large =>
      have deeper := succ_le_of_window_lt exact short reach below
      have next : chunker.window (start.depth + 1) ≤ chunker.window depth := window_mono deeper
      rw [window_succ, ← exact] at next
      have most := (Shape.le_div_iff_mul_lt_wordLimit branches _).mpr
        (Nat.lt_of_le_of_lt next fits)
      omega
  | case2 start short fits grows ih =>
      refine ih ?_ (succ_le_of_window_lt exact short reach below)
      rw [window_succ, exact]
  | case3 start short fits stays =>
      have grows := window_lt_window_succ positive start.depth
      rw [window_succ, ← exact] at grows
      exact absurd grows stays
  | case4 start reaches => exact ⟨start, rfl, below⟩

/-- A window that fits in a word and reaches the end of the content is at least as deep as the shape
that covers it. -/
theorem shapeOf_of_le (positive : 0 < chunker.chunkSize) {depth size : Nat}
    (reach : size ≤ chunker.window depth) (fits : chunker.window depth < wordLimit) :
    ∃ shape, chunker.shapeOf size = .ok shape ∧ shape.depth ≤ depth :=
  cover_of_le positive reach fits ⟨0, chunker.chunkSize⟩ (by simp) (Nat.zero_le depth)

variable (chunker) in
/-- Dropping levels ends at the exact window of the depth, and only at a leaf if the section does
not fill it. -/
theorem settle_window (size depth : Nat) :
    ∃ lower ≤ depth, Shape.settle chunker.branches size depth (chunker.window depth) =
      ⟨lower, chunker.window lower⟩ ∧ (0 < lower → chunker.window lower ≤ size) := by
  induction depth with
  | zero => exact ⟨0, le_rfl, rfl, fun deep => absurd deep (Nat.lt_irrefl 0)⟩
  | succ depth ih =>
      by_cases short : size < chunker.window (depth + 1)
      · obtain ⟨lower, below, settled, fills⟩ := ih
        rw [Shape.settle_of_lt short, window_succ_div]
        exact ⟨lower, Nat.le_succ_of_le below, settled, fills⟩
      · have full := Nat.le_of_not_lt short
        exact ⟨depth + 1, le_rfl, Shape.settle_of_le full, fun _ => full⟩

/-- What a place and its branches reach, they reach when levels are dropped. -/
theorem le_window_settle {size depth : Nat} (reach : size ≤ chunker.window (depth + 1)) :
    size ≤ chunker.window
      ((Shape.settle chunker.branches size depth (chunker.window depth)).depth + 1) := by
  induction depth with
  | zero => exact reach
  | succ depth ih =>
      by_cases short : size < chunker.window (depth + 1)
      · rw [Shape.settle_of_lt short, window_succ_div]
        exact ih short.le
      · rw [Shape.settle_of_le (Nat.le_of_not_lt short)]
        exact reach

end Chunker

end ChunkTree
