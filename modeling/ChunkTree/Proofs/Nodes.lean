import ChunkTree.Proofs.Calls
import ChunkTree.Proofs.Spans
import Mathlib.Order.Bounds.Basic

/-!
# The nodes of a tree by their places

Which nodes a tree has depends on the length of its content alone.  A node has a path from the root, the
shape that is handed down to it, from which levels are still dropped, and its section of the content
(`Chunker.nodes`).  The window of a shape is exact at every node, and reaches the end of its section in as
many branches as a node may have; when levels are dropped, the greatest depth is left that the section fills
(`Chunker.regular_of_mem_nodes`).  No two nodes have one path (`Chunker.nodup_path_nodes`).
-/

namespace ChunkTree

/-- A node of a tree: the indexes of branches that lead to it, the shape that it is handed, and where its
section of the content starts and how long it is. -/
structure Node where
  path : List Nat
  shape : Shape
  start : Nat
  size : Nat
deriving DecidableEq

namespace Node

/-- The shape with the levels dropped that the section does not fill. -/
def settled (node : Node) (branches : Nat) : Shape := node.shape.normalize branches node.size

/-- The node and the range have a position in common. -/
def Meets (node : Node) (position count : Nat) : Prop :=
  max node.start position < min (node.start + node.size) (position + count)

instance (node : Node) (position count : Nat) : Decidable (node.Meets position count) :=
  inferInstanceAs (Decidable (_ < _))

/-- The node in content that starts elsewhere. -/
def moved (node : Node) (offset : Nat) : Node := { node with start := offset + node.start }

end Node

namespace Chunker

variable (chunker : Chunker)

/-- The node of a branch, one level below a node that stands at a path with this window and section. -/
def branchNode (depth window : Nat) (path : List Nat) (start size index : Nat) : Node where
  path := path ++ [index]
  shape := ⟨depth, window / chunker.branches⟩
  start := start + index * window
  size := min window (size - index * window)

/-- The nodes below one that is handed a shape and a section, each before those below it. -/
def below : (depth window : Nat) → (path : List Nat) → (start size : Nat) → List Node
  | 0, _, _, _, _ => []
  | depth + 1, window, path, start, size =>
    if size < window then below depth (window / chunker.branches) path start size
    else (List.range (branchCount window size)).flatMap fun index =>
      let branch := chunker.branchNode depth window path start size index
      branch :: below depth branch.shape.window branch.path branch.start branch.size

/-- The nodes of a tree of some shape over content of some length, each before those below it. -/
def nodes (shape : Shape) (size : Nat) : List Node :=
  ⟨[], shape, 0, size⟩ :: chunker.below shape.depth shape.window [] 0 size

/-- The branches of a node that is no leaf: there is at least one and no more than the branching factor; they
are ranges that follow each other from the start of the section to its end, and none is empty; all but the last
are as long as the window. -/
structure Branching (window size : Nat) : Prop where
  some : 1 ≤ branchCount window size
  few : branchCount window size ≤ chunker.branches
  tiles : Tiles 0 ((List.range (branchCount window size)).map fun index =>
    (index * window, index * window + min window (size - index * window))) size
  full : ∀ index, index + 1 < branchCount window size → min window (size - index * window) = window

/-- What holds at every node: the window is exact; as many of them as a node may have branches reach the end of
the section; dropping levels leaves the greatest depth that is none or that the section fills, and its exact
window; what is left is a leaf, no longer than all branches of the lowest node, or a node with its branches. -/
structure Regular (node : Node) : Prop where
  window : node.shape.window = chunker.chunkSize * chunker.branches ^ node.shape.depth
  reach : node.size ≤ chunker.branches * node.shape.window
  greatest : IsGreatest
    {depth | depth ≤ node.shape.depth ∧
      (depth = 0 ∨ chunker.chunkSize * chunker.branches ^ depth ≤ node.size)}
    (node.settled chunker.branches).depth
  settled : (node.settled chunker.branches).window =
    chunker.chunkSize * chunker.branches ^ (node.settled chunker.branches).depth
  leaf : (node.settled chunker.branches).depth = 0 → node.size ≤ chunker.chunkSize * chunker.branches
  branches : 1 ≤ (node.settled chunker.branches).depth →
    chunker.Branching (node.settled chunker.branches).window node.size

variable {chunker}

/-- What windows cut a section into, up to where they reach its end. -/
theorem branching_of_reach (positive : 0 < chunker.chunkSize) {depth size : Nat}
    (full : chunker.window depth ≤ size) (reach : size ≤ chunker.window (depth + 1)) :
    chunker.Branching (chunker.window depth) size := by
  have wide := window_pos positive depth
  have counted : ∀ index, index + 1 < branchCount (chunker.window depth) size →
      min (chunker.window depth) (size - index * chunker.window depth) = chunker.window depth := by
    intro index next
    have started := (lt_branchCount_iff wide (index + 1) size).mp next
    rw [Nat.succ_mul] at started
    exact Nat.min_eq_left (by omega)
  refine ⟨(lt_branchCount_iff wide 0 size).mpr (by omega), branchCount_le_branches positive reach,
    ?_, counted⟩
  have cuts := tiles_cuts (fun index => min size (index * chunker.window depth))
    (branchCount (chunker.window depth) size) fun index inside => by
      have started := (lt_branchCount_iff wide index size).mp inside
      simp only [Nat.succ_mul]
      omega
  have last : min size (branchCount (chunker.window depth) size * chunker.window depth) = size :=
    Nat.min_eq_left ((branchCount_le_iff wide _ size).mp le_rfl)
  have first : min size (0 * chunker.window depth) = 0 := by
    rw [Nat.zero_mul, Nat.min_zero]
  simp only [last, first] at cuts
  have same : (List.range (branchCount (chunker.window depth) size)).map (fun index =>
        (min size (index * chunker.window depth), min size ((index + 1) * chunker.window depth))) =
      (List.range (branchCount (chunker.window depth) size)).map fun index =>
        (index * chunker.window depth, index * chunker.window depth +
          min (chunker.window depth) (size - index * chunker.window depth)) := by
    apply List.map_congr_left
    intro index inside
    have started := (lt_branchCount_iff wide index size).mp (List.mem_range.mp inside)
    rw [Prod.mk.injEq, Nat.succ_mul]
    omega
  rwa [same] at cuts

/-- Dropping levels does not go past a depth that the section fills. -/
theorem le_depth_settle {lower depth size : Nat} (within : lower ≤ depth)
    (full : lower = 0 ∨ chunker.window lower ≤ size) :
    lower ≤ (Shape.settle chunker.branches size depth (chunker.window depth)).depth := by
  induction depth with
  | zero => exact within
  | succ depth ih =>
      by_cases short : size < chunker.window (depth + 1)
      · rw [Shape.settle_of_lt short, window_succ_div]
        refine ih ?_
        rcases Nat.lt_or_eq_of_le within with less | rfl
        · exact Nat.le_of_lt_succ less
        · rcases full with none | full
          · omega
          · omega
      · rw [Shape.settle_of_le (Nat.le_of_not_lt short)]
        exact within

/-- A node is regular if its window is exact and its section ends within the next one. -/
theorem regular_of_reach (positive : 0 < chunker.chunkSize) {node : Node}
    (window : node.shape.window = chunker.window node.shape.depth)
    (reach : node.size ≤ chunker.window (node.shape.depth + 1)) : chunker.Regular node := by
  obtain ⟨lower, within, same, fills⟩ := settle_window chunker node.size node.shape.depth
  have settled : node.settled chunker.branches = ⟨lower, chunker.window lower⟩ := by
    rw [Node.settled, Shape.normalize, window, same]
  have ends : node.size ≤ chunker.window (lower + 1) := by
    have settles := le_window_settle reach
    rwa [same] at settles
  refine ⟨window, ?_, ?_, ?_, ?_, ?_⟩
  · rw [window, Nat.mul_comm, ← window_succ]
    exact reach
  · rw [settled]
    constructor
    · refine ⟨within, ?_⟩
      rcases Nat.eq_zero_or_pos lower with leaf | deep
      · exact .inl leaf
      · exact .inr (fills deep)
    · rintro depth ⟨below, full⟩
      have least := le_depth_settle below full
      rwa [same] at least
  · rw [settled]
    rfl
  · rw [settled]
    rintro rfl
    rwa [window_succ, window_zero] at ends
  · rw [settled]
    exact fun deep => branching_of_reach positive (fills deep) ends

theorem below_of_lt {depth window size : Nat} (path : List Nat) (start : Nat)
    (short : size < window) :
    chunker.below (depth + 1) window path start size =
      chunker.below depth (window / chunker.branches) path start size := by
  rw [below, if_pos short]

theorem below_of_le {depth window size : Nat} (path : List Nat) (start : Nat)
    (full : window ≤ size) :
    chunker.below (depth + 1) window path start size =
      (List.range (branchCount window size)).flatMap fun index =>
        chunker.branchNode depth window path start size index ::
          chunker.below depth (window / chunker.branches) (path ++ [index])
            (start + index * window) (min window (size - index * window)) := by
  rw [below, if_neg (Nat.not_lt_of_le full)]
  rfl

theorem mem_below_of_le {depth window size : Nat} {path : List Nat} {start : Nat} {node : Node}
    (full : window ≤ size) :
    node ∈ chunker.below (depth + 1) window path start size ↔
      ∃ index < branchCount window size,
        node = chunker.branchNode depth window path start size index ∨
        node ∈ chunker.below depth (window / chunker.branches) (path ++ [index])
          (start + index * window) (min window (size - index * window)) := by
  rw [below_of_le path start full]
  simp only [List.mem_flatMap, List.mem_range, List.mem_cons]

/-- Nodes below one with an exact window have exact windows, and end within the next one. -/
theorem window_of_mem_below {depth : Nat} {path : List Nat} {start size : Nat} {node : Node}
    (member : node ∈ chunker.below depth (chunker.window depth) path start size) :
    node.shape.window = chunker.window node.shape.depth ∧
      node.size ≤ chunker.window (node.shape.depth + 1) := by
  induction depth generalizing path start size with
  | zero => exact absurd member List.not_mem_nil
  | succ depth ih =>
      by_cases short : size < chunker.window (depth + 1)
      · rw [below_of_lt path start short, window_succ_div] at member
        exact ih member
      · rw [mem_below_of_le (Nat.le_of_not_lt short), window_succ_div] at member
        obtain ⟨index, counted, rfl | member⟩ := member
        · exact ⟨window_succ_div chunker depth, Nat.min_le_left _ _⟩
        · exact ih member

/-- Nodes below another have something of the section, and stay within it. -/
theorem bounds_of_mem_below (positive : 0 < chunker.chunkSize) {depth : Nat} {path : List Nat}
    {start size : Nat} {node : Node}
    (member : node ∈ chunker.below depth (chunker.window depth) path start size) :
    start ≤ node.start ∧ 0 < node.size ∧ node.start + node.size ≤ start + size := by
  induction depth generalizing path start size with
  | zero => exact absurd member List.not_mem_nil
  | succ depth ih =>
      by_cases short : size < chunker.window (depth + 1)
      · rw [below_of_lt path start short, window_succ_div] at member
        exact ih member
      · rw [mem_below_of_le (Nat.le_of_not_lt short), window_succ_div] at member
        obtain ⟨index, counted, here⟩ := member
        have wide := window_pos positive (depth + 1)
        have started := (lt_branchCount_iff wide index size).mp counted
        rcases here with rfl | member
        · simp only [branchNode]
          omega
        · have inside := ih member
          omega

/-- The path of a node below another goes on from the path of that one. -/
theorem path_of_mem_below {depth window : Nat} {path : List Nat} {start size : Nat} {node : Node}
    (member : node ∈ chunker.below depth window path start size) :
    ∃ index rest, node.path = path ++ index :: rest := by
  induction depth generalizing window path start size with
  | zero => exact absurd member List.not_mem_nil
  | succ depth ih =>
      by_cases short : size < window
      · rw [below_of_lt path start short] at member
        exact ih member
      · rw [mem_below_of_le (Nat.le_of_not_lt short)] at member
        obtain ⟨index, counted, rfl | member⟩ := member
        · exact ⟨index, [], rfl⟩
        · obtain ⟨next, rest, same⟩ := ih member
          exact ⟨index, next :: rest, by rw [same, List.append_assoc, List.singleton_append]⟩

/-- The paths of a branch and of what is below it start with the branch. -/
theorem path_of_mem_branch {depth window : Nat} {path other : List Nat} {start size index : Nat}
    (member : other ∈ (chunker.branchNode depth window path start size index ::
      chunker.below depth (window / chunker.branches) (path ++ [index]) (start + index * window)
        (min window (size - index * window))).map Node.path) :
    ∃ rest, other = path ++ index :: rest := by
  obtain ⟨node, here, rfl⟩ := List.mem_map.mp member
  rcases List.mem_cons.mp here with rfl | below
  · exact ⟨[], rfl⟩
  · obtain ⟨next, rest, same⟩ := path_of_mem_below below
    exact ⟨next :: rest, by rw [same, List.append_assoc, List.singleton_append]⟩

/-- Where the content starts has no part in what is below a node. -/
theorem below_moved (depth window : Nat) (path : List Nat) (offset start size : Nat) :
    chunker.below depth window path (offset + start) size =
      (chunker.below depth window path start size).map (·.moved offset) := by
  induction depth generalizing window path start size with
  | zero => rfl
  | succ depth ih =>
      by_cases short : size < window
      · rw [below_of_lt path _ short, below_of_lt path _ short]
        exact ih _ _ _ _
      · have full := Nat.le_of_not_lt short
        rw [below_of_le path _ full, below_of_le path _ full, List.map_flatMap]
        apply List.flatMap_congr
        intro index counted
        rw [List.map_cons, Nat.add_assoc, ih]
        simp only [branchNode, Node.moved, Nat.add_assoc]

/-- What is below a node is below every node above it. -/
theorem below_subset {depth window : Nat} {path : List Nat} {start size : Nat} {node other : Node}
    (member : node ∈ chunker.below depth window path start size)
    (inside : other ∈ chunker.below node.shape.depth node.shape.window node.path node.start
      node.size) : other ∈ chunker.below depth window path start size := by
  induction depth generalizing window path start size with
  | zero => exact absurd member List.not_mem_nil
  | succ depth ih =>
      by_cases short : size < window
      · rw [below_of_lt path start short] at member ⊢
        exact ih member
      · rw [mem_below_of_le (Nat.le_of_not_lt short)] at member ⊢
        obtain ⟨index, counted, rfl | member⟩ := member
        · exact ⟨index, counted, .inr inside⟩
        · exact ⟨index, counted, .inr (ih member)⟩

/-- The branches of a node, once its levels are dropped, are below it. -/
theorem branchNode_mem_below (path : List Nat) (start : Nat) {depth window size index : Nat}
    (deep : 1 ≤ (Shape.settle chunker.branches size depth window).depth)
    (counted : index < branchCount (Shape.settle chunker.branches size depth window).window size) :
    chunker.branchNode ((Shape.settle chunker.branches size depth window).depth - 1)
      (Shape.settle chunker.branches size depth window).window path start size index ∈
        chunker.below depth window path start size := by
  induction depth generalizing window with
  | zero => exact absurd deep (Nat.not_succ_le_zero 0)
  | succ depth ih =>
      by_cases short : size < window
      · rw [Shape.settle_of_lt short] at deep counted ⊢
        rw [below_of_lt path start short]
        exact ih deep counted
      · have full := Nat.le_of_not_lt short
        rw [Shape.settle_of_le full] at counted ⊢
        exact (mem_below_of_le full).mpr ⟨index, counted, .inl rfl⟩

/-- Two nodes below one do not have one path. -/
theorem nodup_path_below (depth window : Nat) (path : List Nat) (start size : Nat) :
    ((chunker.below depth window path start size).map Node.path).Nodup := by
  induction depth generalizing window path start size with
  | zero => exact List.nodup_nil
  | succ depth ih =>
      by_cases short : size < window
      · rw [below_of_lt path start short]
        exact ih _ _ _ _
      · rw [below_of_le path start (Nat.le_of_not_lt short), List.map_flatMap, List.Nodup,
          List.pairwise_flatMap]
        constructor
        · intro index counted
          rw [List.map_cons, List.pairwise_cons]
          refine ⟨fun other member same => ?_, ih _ _ _ _⟩
          obtain ⟨node, below, rfl⟩ := List.mem_map.mp member
          obtain ⟨next, rest, further⟩ := path_of_mem_below below
          have lengths := congrArg List.length (same.trans further)
          simp only [branchNode, List.length_append, List.length_cons, List.length_nil] at lengths
          omega
        · refine List.nodup_range.imp fun apart one first other second same => apart ?_
          obtain ⟨rest, rfl⟩ := path_of_mem_branch first
          obtain ⟨more, rfl⟩ := path_of_mem_branch second
          exact (List.cons.inj (List.append_cancel_left same)).1

variable {shape : Shape} {size : Nat} {node : Node}

/-- Every node of the tree over some content is regular. -/
theorem regular_of_mem_nodes (positive : 0 < chunker.chunkSize)
    (covered : chunker.shapeOf size = .ok shape) (member : node ∈ chunker.nodes shape size) :
    chunker.Regular node := by
  obtain ⟨window, -, -⟩ := window_of_shapeOf covered
  rw [nodes, window, List.mem_cons] at member
  rcases member with rfl | member
  · exact regular_of_reach positive window (le_window_succ_of_shapeOf covered)
  · obtain ⟨exact_, reach⟩ := window_of_mem_below member
    exact regular_of_reach positive exact_ reach

/-- The branches of a node of a tree are nodes of it. -/
theorem branchNode_mem_nodes (member : node ∈ chunker.nodes shape size)
    (deep : 1 ≤ (node.settled chunker.branches).depth) {index : Nat}
    (counted : index < branchCount (node.settled chunker.branches).window node.size) :
    chunker.branchNode ((node.settled chunker.branches).depth - 1)
      (node.settled chunker.branches).window node.path node.start node.size index ∈
        chunker.nodes shape size := by
  have inside := branchNode_mem_below node.path node.start deep counted
  rw [nodes, List.mem_cons] at member ⊢
  right
  rcases member with rfl | member
  · exact inside
  · exact below_subset member inside

/-- Every node has something of all content. -/
theorem filter_meets_all (positive : 0 < chunker.chunkSize)
    (covered : chunker.shapeOf size = .ok shape) (nonempty : 0 < size) :
    (chunker.nodes shape size).filter (fun node => node.Meets 0 size) = chunker.nodes shape size := by
  obtain ⟨window, -, -⟩ := window_of_shapeOf covered
  rw [List.filter_eq_self]
  intro node member
  rw [nodes, window, List.mem_cons] at member
  rw [decide_eq_true_eq]
  rcases member with rfl | member
  · simp only [Node.Meets]
    omega
  · have inside := bounds_of_mem_below positive member
    simp only [Node.Meets]
    omega

/-- No two nodes of a tree have one path. -/
theorem nodup_path_nodes (shape : Shape) (size : Nat) :
    ((chunker.nodes shape size).map Node.path).Nodup := by
  rw [nodes, List.map_cons, List.nodup_cons]
  refine ⟨fun member => ?_, nodup_path_below _ _ _ _ _⟩
  obtain ⟨node, below, same⟩ := List.mem_map.mp member
  obtain ⟨index, rest, further⟩ := path_of_mem_below below
  rw [further] at same
  cases same

end Chunker

end ChunkTree
