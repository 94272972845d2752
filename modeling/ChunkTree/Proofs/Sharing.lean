import ChunkTree.Proofs.Recording

/-!
# Sections split alike wherever they are

A section that is shorter than the window above its place is split there as it is split alone: the
shape that it inherits and the shape that covers it lose their levels down to the same one
(`Chunker.split_eq_splitAt`).  Where it fills that window, it is alone the only branch of one more
node (`Chunker.split_of_full`), and so it is at all deeper places.

Which sections and shapes there are below the root of a tree is told by what splitting comes to
(`Chunker.Child`): the window is the exact one of the depth, and the section has something and
reaches at most to the end of the window above.
-/

namespace ChunkTree.Chunker

variable {σ : Type} {chunker : Chunker} {collect : Collector σ}

/-- At a place deeper than its size demands, a section drops levels. -/
theorem splitAt_of_lt {low high : Nat} (deeper : low ≤ high) {part : Section σ}
    (short : part.size < chunker.window (low + 1)) :
    chunker.splitAt collect high (chunker.window high) part =
      chunker.splitAt collect low (chunker.window low) part := by
  induction high, deeper using Nat.le_induction with
  | base => rfl
  | succ high deeper ih =>
      have wide : chunker.window (low + 1) ≤ chunker.window (high + 1) := window_mono (by omega)
      rw [splitAt, if_pos (Nat.lt_of_lt_of_le short wide), window_succ_div, ih]

/-- A section alone is split as at the place of the least depth whose window covers it. -/
theorem split_of_shapeOf {part : Section σ} {shape : Shape}
    (covered : chunker.shapeOf part.size = .ok shape) :
    chunker.split part (some collect) =
      chunker.splitAt collect shape.depth (chunker.window shape.depth) part := by
  rw [← (window_of_shapeOf covered).1, split, covered]
  rfl

theorem split_eq_splitAt (positive : 0 < chunker.chunkSize) {depth : Nat}
    (fits : chunker.window (depth + 1) < wordLimit) {part : Section σ}
    (short : part.size < chunker.window (depth + 1)) :
    chunker.split part (some collect) =
      chunker.splitAt collect depth (chunker.window depth) part := by
  obtain ⟨shape, covered, least⟩ := shapeOf_of_le positive short.le fits
  rw [split_of_shapeOf covered]
  by_cases last : shape.depth ≤ depth
  · have reach := (window_of_shapeOf covered).2.1
    rw [(window_of_shapeOf covered).1] at reach
    exact (splitAt_of_lt last
      (Nat.lt_of_le_of_lt reach (window_lt_window_succ positive _))).symm
  · have next : shape.depth = depth + 1 := by omega
    rw [next, splitAt_of_lt (Nat.le_succ depth) short]

theorem branch_of_full {part : Section σ} {window : Nat} (full : part.size = window) :
    part.branch window 0 = part := by
  rcases part with ⟨source, start, size⟩
  subst full
  simp [Section.branch]

/-- A section that fills the window is split as the only branch of a node. -/
theorem splitAt_of_full (positive : 0 < chunker.chunkSize) {depth : Nat} {part : Section σ}
    (full : part.size = chunker.window (depth + 1)) :
    chunker.splitAt collect (depth + 1) (chunker.window (depth + 1)) part =
      (do let key ← chunker.splitAt collect depth (chunker.window depth) part
          chunker.emit collect part.size key.bytes) := by
  have wide := window_pos positive (depth + 1)
  have single := (branchCount_eq_one_iff wide full.ge).mpr full
  rw [splitAt, if_neg (by omega), single, window_succ_div, List.range_one, List.mapM_cons,
    List.mapM_nil, branch_of_full full]
  simp

theorem split_of_full (positive : 0 < chunker.chunkSize) {depth : Nat}
    (fits : chunker.window (depth + 1) < wordLimit) {part : Section σ}
    (full : part.size = chunker.window (depth + 1)) :
    chunker.split part (some collect) =
      (do let key ← chunker.splitAt collect depth (chunker.window depth) part
          chunker.emit collect part.size key.bytes) := by
  obtain ⟨shape, covered, least⟩ := shapeOf_of_le positive full.le fits
  obtain ⟨window, reach, -⟩ := window_of_shapeOf covered
  rw [window, full] at reach
  have last : shape.depth = depth + 1 := Nat.le_antisymm least (le_of_window_le positive reach)
  rw [split_of_shapeOf covered, last, splitAt_of_full positive full]

variable (chunker) in
/-- At a place of this depth and window the section makes a node, and this is one of the branches of
the node, at the depth and with the window of its own place. -/
inductive Branches (depth window : Nat) (part : Section σ) : (lower inner : Nat) → Section σ → Prop
  | intro {lower width index : Nat}
      (node : Shape.settle chunker.branches part.size depth window = ⟨lower + 1, width⟩)
      (counted : index < branchCount width part.size) :
      Branches depth window part lower (width / chunker.branches) (part.branch width index)

/-- What is split for a node are its branches, each at its own place. -/
theorem splitAt_of_settle {depth window lower width : Nat} {part : Section σ}
    (node : Shape.settle chunker.branches part.size depth window = ⟨lower + 1, width⟩) :
    chunker.splitAt collect depth window part =
      (do let keys ← (List.range (branchCount width part.size)).mapM fun index =>
            chunker.splitAt collect lower (width / chunker.branches) (part.branch width index)
          chunker.emit collect part.size (Bytes.concat (keys.map Key.bytes))) := by
  induction depth generalizing window with
  | zero => cases node
  | succ depth ih =>
      rw [splitAt]
      by_cases short : part.size < window
      · rw [Shape.settle_of_lt short] at node
        rw [if_pos short]
        exact ih node
      · rw [Shape.settle_of_le (Nat.le_of_not_lt short)] at node
        rw [if_neg short]
        cases node
        rfl

variable (chunker) in
/-- Splitting the whole comes to this section, at a place of this depth and window. -/
inductive Reaches (whole : Section σ) : (depth window : Nat) → Section σ → Prop
  | root {shape : Shape} (covered : chunker.shapeOf whole.size = .ok shape) :
      Reaches whole shape.depth shape.window whole
  | branch {depth window lower inner : Nat} {part branch : Section σ}
      (reached : Reaches whole depth window part)
      (below : chunker.Branches depth window part lower inner branch) :
      Reaches whole lower inner branch

variable (chunker) in
/-- Splitting the whole comes to this section below its root. -/
def Child (whole : Section σ) (lower inner : Nat) (branch : Section σ) : Prop :=
  ∃ depth window part, chunker.Reaches whole depth window part ∧
    chunker.Branches depth window part lower inner branch

variable {whole part branch : Section σ} {depth window lower inner : Nat}

/-- A branch has the exact window of its depth, and has something, but no more than the window of
its node. -/
theorem Branches.bounds (positive : 0 < chunker.chunkSize)
    (below : chunker.Branches depth (chunker.window depth) part lower inner branch) :
    lower < depth ∧ inner = chunker.window lower ∧ 0 < branch.size ∧
      branch.size ≤ chunker.window (lower + 1) := by
  cases below with
  | @intro width index node counted =>
      obtain ⟨level, shallow, settled, -⟩ := settle_window chunker part.size depth
      rw [node, Shape.mk.injEq] at settled
      obtain ⟨rfl, rfl⟩ := settled
      have started := (lt_branchCount_iff (window_pos positive _) _ _).mp counted
      have wide := window_pos positive (lower + 1)
      refine ⟨shallow, window_succ_div chunker lower, ?_, Nat.min_le_left _ _⟩
      simp only [Section.branch]
      omega

/-- The places that splitting comes to have exact windows that fit in words. -/
theorem Reaches.window_eq (positive : 0 < chunker.chunkSize)
    (reached : chunker.Reaches whole depth window part) :
    window = chunker.window depth ∧ chunker.window depth < wordLimit := by
  induction reached with
  | root covered =>
      obtain ⟨exact, -, word⟩ := window_of_shapeOf covered
      exact ⟨exact, exact ▸ word⟩
  | branch reached below ih =>
      obtain ⟨rfl, word⟩ := ih
      obtain ⟨shallow, exact, -, -⟩ := below.bounds positive
      exact ⟨exact, Nat.lt_of_le_of_lt (window_mono shallow.le) word⟩

/-- What splitting comes to is a part of the whole. -/
theorem Reaches.inside (positive : 0 < chunker.chunkSize)
    (reached : chunker.Reaches whole depth window part) :
    part.source = whole.source ∧ whole.start ≤ part.start ∧
      part.start + part.size ≤ whole.start + whole.size := by
  induction reached with
  | root covered => exact ⟨rfl, le_rfl, le_rfl⟩
  | branch reached below ih =>
      obtain ⟨rfl, -⟩ := reached.window_eq positive
      have size := (below.bounds positive).2.2.1
      obtain ⟨source, start, stop⟩ := ih
      cases below with
      | intro node counted =>
          simp only [Section.branch] at size ⊢
          exact ⟨source, by omega, by omega⟩

/-- Below the root, a section has something, and at most fills the window above its own, which fits
in a word. -/
theorem Child.bounds (positive : 0 < chunker.chunkSize)
    (child : chunker.Child whole lower inner branch) :
    inner = chunker.window lower ∧ chunker.window (lower + 1) < wordLimit ∧ 0 < branch.size ∧
      branch.size ≤ chunker.window (lower + 1) := by
  obtain ⟨depth, window, part, reached, below⟩ := child
  obtain ⟨rfl, word⟩ := reached.window_eq positive
  obtain ⟨shallow, exact, some, most⟩ := below.bounds positive
  exact ⟨exact, Nat.lt_of_le_of_lt (window_mono shallow) word, some, most⟩

theorem Child.inside (positive : 0 < chunker.chunkSize)
    (child : chunker.Child whole lower inner branch) :
    branch.source = whole.source ∧ whole.start ≤ branch.start ∧
      branch.start + branch.size ≤ whole.start + whole.size := by
  obtain ⟨depth, window, part, reached, below⟩ := child
  exact (reached.branch below).inside positive

/-- A part of some bytes holds the bytes of its range. -/
theorem Child.holds (positive : 0 < chunker.chunkSize) {content : Bytes}
    (child : chunker.Child (Section.ofBytes content) lower inner branch) :
    branch.Holds (content.slice branch.start branch.size) := by
  obtain ⟨source, -, stop⟩ := child.inside positive
  simp only [Section.ofBytes, Section.whole, Nat.zero_add] at source stop
  have size : (content.slice branch.start branch.size).size = branch.size := by
    rw [Bytes.size_slice]
    omega
  refine ⟨size.symm, fun position count inside => ?_⟩
  rw [size] at inside
  have whole := (Section.holds_ofBytes (σ := σ) content).readAt_eq (branch.start + position) count
    (by omega)
  rw [Section.readAt_of_le _ (by simp only [Section.ofBytes, Section.whole]; omega)] at whole
  rw [Section.readAt_of_le _ inside, source, Bytes.slice_slice content inside, ← whole]
  simp only [Section.ofBytes, Section.whole, Nat.zero_add]

/-- Splitting comes to the root of what it comes to, which a tree covers. -/
theorem Reaches.covered (reached : chunker.Reaches whole depth window part) :
    ∃ shape, chunker.shapeOf whole.size = .ok shape := by
  induction reached with
  | root covered => exact ⟨_, covered⟩
  | branch reached below ih => exact ih

/-- Only below a node with a longer section is there a branch that does not fill the window. -/
theorem Child.word_of_lt (positive : 0 < chunker.chunkSize)
    (child : chunker.Child whole lower inner branch)
    (short : branch.size < chunker.window (lower + 1)) :
    chunker.window (lower + 2) < wordLimit := by
  obtain ⟨depth, window, part, reached, below⟩ := child
  obtain ⟨rfl, -⟩ := reached.window_eq positive
  have inside := (reached.inside positive).2
  obtain ⟨shape, covered⟩ := reached.covered
  obtain ⟨exact, reach, word⟩ := window_of_shapeOf covered
  rw [exact] at reach word
  cases below with
  | @intro width index node counted =>
      obtain ⟨level, -, settled, fills⟩ := settle_window chunker part.size depth
      rw [node, Shape.mk.injEq] at settled
      obtain ⟨rfl, rfl⟩ := settled
      have full := fills (Nat.succ_pos lower)
      have started := (lt_branchCount_iff (window_pos positive _) _ _).mp counted
      simp only [Section.branch] at short
      have longer : chunker.window (lower + 1) < whole.size := by
        rcases Nat.eq_zero_or_pos index with rfl | later
        · omega
        · have first : 1 * chunker.window (lower + 1) ≤ index * chunker.window (lower + 1) :=
            Nat.mul_le_mul_right _ later
          omega
      have deeper : lower + 2 ≤ shape.depth := by
        by_contra shallow
        have narrow : chunker.window shape.depth ≤ chunker.window (lower + 1) :=
          window_mono (by omega)
        omega
      exact Nat.lt_of_le_of_lt (window_mono deeper) word

/-- A whole that fills the window above a place is itself a branch at the place. -/
theorem child_of_full (positive : 0 < chunker.chunkSize)
    (fits : chunker.window (lower + 1) < wordLimit)
    (full : whole.size = chunker.window (lower + 1)) :
    chunker.Child whole lower (chunker.window lower) whole := by
  obtain ⟨shape, covered, least⟩ := shapeOf_of_le positive full.le fits
  obtain ⟨exact, reach, -⟩ := window_of_shapeOf covered
  rw [exact, full] at reach
  have last : shape.depth = lower + 1 := Nat.le_antisymm least (le_of_window_le positive reach)
  have node : Shape.settle chunker.branches whole.size shape.depth shape.window =
      ⟨lower + 1, chunker.window (lower + 1)⟩ := by
    rw [exact, last, Shape.settle_of_le full.ge]
  have started : 0 < branchCount (chunker.window (lower + 1)) whole.size := by
    rw [lt_branchCount_iff (window_pos positive _), Nat.zero_mul, full]
    exact window_pos positive _
  have below := Branches.intro node started
  rw [window_succ_div, branch_of_full full] at below
  exact ⟨shape.depth, shape.window, whole, .root covered, below⟩

/-- What a whole has beyond one window is a branch, if it is less than another. -/
theorem child_of_rest (positive : 0 < chunker.chunkSize)
    (fits : chunker.window (lower + 2) < wordLimit)
    (longer : chunker.window (lower + 1) < whole.size)
    (short : whole.size < 2 * chunker.window (lower + 1)) :
    chunker.Child whole lower (chunker.window lower)
      (whole.branch (chunker.window (lower + 1)) 1) := by
  have twice : 2 * chunker.window (lower + 1) ≤ chunker.window (lower + 2) := by
    rw [window_succ chunker (lower + 1), Nat.mul_comm]
    exact Nat.mul_le_mul_left _ chunker.two_le_branches
  obtain ⟨shape, covered, least⟩ := shapeOf_of_le positive (by omega : whole.size ≤ _) fits
  obtain ⟨exact, reach, -⟩ := window_of_shapeOf covered
  have last : shape.depth = lower + 2 := by
    refine Nat.le_antisymm least ?_
    by_contra shallow
    have narrow : chunker.window shape.depth ≤ chunker.window (lower + 1) :=
      window_mono (by omega)
    omega
  have node : Shape.settle chunker.branches whole.size shape.depth shape.window =
      ⟨lower + 1, chunker.window (lower + 1)⟩ := by
    rw [exact, last, Shape.settle_of_lt (by omega), window_succ_div,
      Shape.settle_of_le longer.le]
  have started : 1 < branchCount (chunker.window (lower + 1)) whole.size := by
    rw [lt_branchCount_iff (window_pos positive _), Nat.one_mul]
    exact longer
  have below := Branches.intro node started
  rw [window_succ_div] at below
  exact ⟨shape.depth, shape.window, whole, .root covered, below⟩

/-- Sections with the same content are split alike at one place. -/
theorem splitAt_congr (positive : 0 < chunker.chunkSize) (depth : Nat) {content : Bytes}
    {first second : Section σ} (holds : first.Holds content) (other : second.Holds content) :
    chunker.splitAt collect depth (chunker.window depth) first =
      chunker.splitAt collect depth (chunker.window depth) second := by
  rw [splitAt_eq positive depth holds, splitAt_eq positive depth other]

/-- Deeper down, a section that fills the window above a place is the only branch of a node. -/
theorem splitAt_of_full_of_lt (positive : 0 < chunker.chunkSize) {high : Nat}
    (deeper : depth < high) (full : part.size = chunker.window (depth + 1)) :
    chunker.splitAt collect high (chunker.window high) part =
      (do let key ← chunker.splitAt collect depth (chunker.window depth) part
          chunker.emit collect part.size key.bytes) := by
  rw [splitAt_of_lt deeper (full ▸ window_lt_window_succ positive (depth + 1)),
    splitAt_of_full positive full]

/-- Deeper places split a section as the shallower one does, but for the node above it if it fills
the window above the shallower place. -/
theorem splitAt_of_le (positive : 0 < chunker.chunkSize) {high : Nat} (deeper : depth ≤ high)
    (most : part.size ≤ chunker.window (depth + 1)) :
    chunker.splitAt collect high (chunker.window high) part =
      if depth < high ∧ part.size = chunker.window (depth + 1) then
        (do let key ← chunker.splitAt collect depth (chunker.window depth) part
            chunker.emit collect part.size key.bytes)
      else chunker.splitAt collect depth (chunker.window depth) part := by
  by_cases wrapped : depth < high ∧ part.size = chunker.window (depth + 1)
  · rw [if_pos wrapped, splitAt_of_full_of_lt positive wrapped.1 wrapped.2]
  · rw [if_neg wrapped]
    rcases Nat.eq_or_lt_of_le deeper with rfl | deeper
    · rfl
    · have short : part.size < chunker.window (depth + 1) :=
        Nat.lt_of_le_of_ne most fun full => wrapped ⟨deeper, full⟩
      exact splitAt_of_lt deeper.le short

/-- Some bytes are those of a section below the root of a tree exactly if they fill the window above
its place, or are fewer and there are words for a window more. -/
theorem exists_child_iff (positive : 0 < chunker.chunkSize) {bytes : Bytes} :
    (∃ (content : Bytes) (branch : Section σ),
        chunker.Child (.ofBytes content) lower inner branch ∧ branch.Holds bytes) ↔
      inner = chunker.window lower ∧ 0 < bytes.size ∧
        (bytes.size = chunker.window (lower + 1) ∧ chunker.window (lower + 1) < wordLimit ∨
          bytes.size < chunker.window (lower + 1) ∧ chunker.window (lower + 2) < wordLimit) := by
  constructor
  · rintro ⟨content, branch, child, holds⟩
    obtain ⟨exact, word, some, most⟩ := child.bounds positive
    have above := child.word_of_lt positive
    rw [holds.size_eq] at some most above
    rcases Nat.eq_or_lt_of_le most with full | short
    · exact ⟨exact, some, .inl ⟨full, word⟩⟩
    · exact ⟨exact, some, .inr ⟨short, above short⟩⟩
  · rintro ⟨rfl, some, ⟨full, word⟩ | ⟨short, word⟩⟩
    · exact ⟨bytes, .ofBytes bytes, child_of_full positive word full, Section.holds_ofBytes bytes⟩
    · -- The bytes are what there is beyond one full window.
      let content : Bytes := Array.replicate (chunker.window (lower + 1)) 0 ++ bytes
      have size : content.size = chunker.window (lower + 1) + bytes.size := by
        simp [content]
      have whole : (Section.ofBytes content : Section σ).size = content.size := rfl
      have holds : Section.Holds (σ := σ)
          ((Section.ofBytes content).branch (chunker.window (lower + 1)) 1)
          (content.piece (chunker.window (lower + 1)) 1) :=
        (Section.holds_ofBytes content).branch (by omega)
      rw [Bytes.piece_append_one Array.size_replicate short.le] at holds
      exact ⟨content, _, child_of_rest positive word (by omega) (by omega), holds⟩

/-- **Subtrees do not depend on where they are**, but for one node.  At a place whose window above
fits in a word, a section is split as it is split alone if it is shorter than that window; and if it
fills the window, it is alone the only branch of one more node, which comes last.

At the places below the roots of trees, which have the exact windows of their depths, there are of
these sections those that fill the window above, and, as far as words count one window more, all
that are shorter but not empty.  So where the same bytes stand below the roots of two trees, they
are split alike in both, except that at the deeper of two places, if they fill the window above the
other, they come with the one node more. -/
theorem splitAt_wherever (small : chunker.keySize * chunker.branches < wordLimit) :
    (∀ (depth : Nat) (part : Section σ) (collect : Collector σ),
      chunker.keySize * chunker.branches ^ (depth + 2) < wordLimit →
      (part.size < chunker.keySize * chunker.branches ^ (depth + 2) →
        chunker.split part (some collect) = chunker.splitAt collect depth
          (chunker.keySize * chunker.branches ^ (depth + 1)) part) ∧
      (part.size = chunker.keySize * chunker.branches ^ (depth + 2) →
        chunker.split part (some collect) =
          (do let key ← chunker.splitAt collect depth
                (chunker.keySize * chunker.branches ^ (depth + 1)) part
              chunker.emit collect part.size key.bytes))) ∧
    (∀ (depth window : Nat) (bytes : Bytes),
      (∃ (content : Bytes) (part : Section σ),
          chunker.Child (.ofBytes content) depth window part ∧ part.Holds bytes) ↔
        window = chunker.keySize * chunker.branches ^ (depth + 1) ∧ 0 < bytes.size ∧
          (bytes.size = chunker.keySize * chunker.branches ^ (depth + 2) ∧
              chunker.keySize * chunker.branches ^ (depth + 2) < wordLimit ∨
            bytes.size < chunker.keySize * chunker.branches ^ (depth + 2) ∧
              chunker.keySize * chunker.branches ^ (depth + 3) < wordLimit)) ∧
    ∀ (first second : Bytes) (depth window deep wide : Nat) (part other : Section σ)
      (collect : Collector σ), depth ≤ deep →
      chunker.Child (.ofBytes first) depth window part →
      chunker.Child (.ofBytes second) deep wide other →
      first.slice part.start part.size = second.slice other.start other.size →
      chunker.splitAt collect deep wide other =
        if depth < deep ∧ part.size = chunker.keySize * chunker.branches ^ (depth + 2) then
          (do let key ← chunker.splitAt collect depth window part
              chunker.emit collect part.size key.bytes)
        else chunker.splitAt collect depth window part := by
  have positive := chunkSize_pos small
  simp only [← window_eq_pow small]
  refine ⟨fun depth part collect fits =>
      ⟨split_eq_splitAt positive fits, split_of_full positive fits⟩,
    fun depth window bytes => exists_child_iff positive, ?_⟩
  intro first second depth window deep wide part other collect deeper child otherChild same
  obtain ⟨rfl, -, -, most⟩ := child.bounds positive
  obtain ⟨rfl, -, -, -⟩ := otherChild.bounds positive
  have holds := child.holds positive
  rw [same] at holds
  rw [splitAt_congr positive deep (otherChild.holds positive) holds,
    splitAt_of_le positive deeper most]

/-- Four bytes fill the window above a leaf's place, and alone they are split into a leaf and the
node above it. -/
theorem splitAt_wherever_four_bytes :
    tiny.keySize * tiny.branches < wordLimit ∧ ∀ collect : Collector (Array Chunk),
      tiny.split (.ofBytes #[1, 2, 3, 4]) (some collect) =
        (do let key ← tiny.splitAt collect 0 2 (.ofBytes #[1, 2, 3, 4])
            tiny.emit collect 4 key.bytes) := by
  refine ⟨by decide, fun collect => ?_⟩
  exact ((splitAt_wherever (by decide)).1 0 (.ofBytes #[1, 2, 3, 4]) collect (by decide)).2 rfl

/-- The same four bytes stand below the root of one tree in a leaf, and below the root of another,
where they would have room for more, in a leaf and the node above it.  And no bytes at all are
nowhere below a root. -/
theorem not_splitAt_wherever :
    (¬ ∀ (first second : Bytes) (depth window deep wide : Nat) (part other : Section (Array Chunk)),
      tiny.Child (.ofBytes first) depth window part →
      tiny.Child (.ofBytes second) deep wide other →
      first.slice part.start part.size = second.slice other.start other.size →
      ∀ chunk, chunk ∈ ((tiny.splitAt record deep wide other).run #[]).2 →
        chunk ∈ ((tiny.splitAt record depth window part).run #[]).2) ∧
    ∀ (content : Bytes) (depth window : Nat) (part : Section (Array Chunk)),
      tiny.Child (.ofBytes content) depth window part → part.size ≠ 0 := by
  have positive : 0 < tiny.chunkSize := by decide
  constructor
  · intro share
    let short : Section (Array Chunk) := .ofBytes #[1, 2, 3, 4]
    let long : Section (Array Chunk) := .ofBytes #[1, 2, 3, 4, 5, 6, 7, 8, 1, 2, 3, 4]
    have leaf : tiny.Child short 0 2 short := child_of_full positive (by decide) rfl
    have node : tiny.Child long 1 4 (long.branch 8 1) :=
      child_of_rest positive (by decide) (by decide) (by decide)
    have wrapper := share _ _ _ _ _ _ _ _ leaf node (by decide)
      ⟨⟨#[18]⟩, some #[4, 0, 0, 0, 0, 0, 0, 0, 14], 4⟩ (by decide +kernel)
    revert wrapper
    decide +kernel
  · intro content depth window part child
    exact (child.bounds positive).2.2.1.ne'

end ChunkTree.Chunker
