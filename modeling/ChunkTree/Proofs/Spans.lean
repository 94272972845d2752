import ChunkTree.Proofs.Reading

/-!
# The spans of a tree

Every node of a tree covers a span of the content, and the branches of a node share its span out
among them, from left to right (`Tree.spans`), so every node has its own place
(`Chunker.ordered_spans`, `Chunker.nodup_spans`).  What a read of a range comes to are exactly the
nodes below the root whose spans have something of the range, each before its branches
(`Chunker.visits_eq`): the division that finds the branches of a node neither misses nor adds one.
-/

namespace ChunkTree

/-- A node of a tree, and the position at which its content starts. -/
structure Span where
  start : Nat
  node : Tree

namespace Span

/-- The position behind the content of the node. -/
def stop (span : Span) : Nat := span.start + span.node.size

/-- The span and the range have a position in common. -/
def Meets (span : Span) (position count : Nat) : Prop :=
  max span.start position < min span.stop (position + count)

instance (span : Span) (position count : Nat) : Decidable (span.Meets position count) :=
  inferInstanceAs (Decidable (_ < _))

end Span

namespace Tree

mutual

/-- The nodes of a tree whose content starts at a position, each before its branches. -/
def spans (start : Nat) : Tree → List Span
  | ⟨size, data, branches⟩ => ⟨start, ⟨size, data, branches⟩⟩ :: spansOf start branches

/-- The nodes of trees that stand side by side from a position on. -/
def spansOf (start : Nat) : List Tree → List Span
  | [] => []
  | tree :: rest => spans start tree ++ spansOf (start + tree.size) rest

end

/-- The nodes below the root of a tree, each before its branches. -/
def descendants (tree : Tree) : List Span := spansOf 0 tree.branches

theorem spans_eq (start : Nat) (tree : Tree) :
    spans start tree = ⟨start, tree⟩ :: spansOf start tree.branches := by
  rcases tree with ⟨size, data, branches⟩
  rw [spans]

/-- Where each tree but the last has the same width, a tree starts at a multiple of it. -/
theorem spansOf_map_range' (width start : Nat) (tree : Nat → Tree) (count first : Nat)
    (full : ∀ index, first ≤ index → index + 1 < first + count → (tree index).size = width) :
    spansOf (start + first * width) ((List.range' first count).map tree) =
      (List.range' first count).flatMap fun index => spans (start + index * width) (tree index) := by
  induction count generalizing first with
  | zero => simp [spansOf]
  | succ count ih =>
      rw [List.range'_succ, List.map_cons, List.flatMap_cons, spansOf]
      cases count with
      | zero => simp [spansOf]
      | succ count =>
          have next : start + first * width + (tree first).size = start + (first + 1) * width := by
            rw [full first le_rfl (by omega), Nat.succ_mul, Nat.add_assoc]
          rw [next, ih (first + 1) fun index after inside => full index (by omega) (by omega)]

theorem sizeOf_branches_lt (tree : Tree) : sizeOf tree.branches < sizeOf tree := by
  rcases tree with ⟨size, data, branches⟩
  simp only [Tree.mk.sizeOf_spec]
  omega

mutual

theorem sizeOf_le_of_mem_spans {start : Nat} {tree : Tree} {span : Span}
    (member : span ∈ spans start tree) : sizeOf span.node ≤ sizeOf tree := by
  rcases tree with ⟨size, data, branches⟩
  rw [spans, List.mem_cons] at member
  rcases member with rfl | below
  · exact le_rfl
  · have smaller := sizeOf_lt_of_mem_spansOf below
    rw [Tree.mk.sizeOf_spec]
    omega

/-- A node below another is a smaller value. -/
theorem sizeOf_lt_of_mem_spansOf {start : Nat} {trees : List Tree} {span : Span}
    (member : span ∈ spansOf start trees) : sizeOf span.node < sizeOf trees := by
  cases trees with
  | nil => exact absurd member List.not_mem_nil
  | cons tree rest =>
      rw [spansOf, List.mem_append] at member
      rw [List.cons.sizeOf_spec]
      rcases member with first | later
      · have smaller := sizeOf_le_of_mem_spans first
        omega
      · have smaller := sizeOf_lt_of_mem_spansOf later
        omega

end

end Tree

/-- Where two nodes stand in a tree: one starts before the other, or both at one position and the
other below. -/
def Span.Before (span later : Span) : Prop :=
  span.start < later.start ∨ span.start = later.start ∧ sizeOf later.node < sizeOf span.node

namespace Chunker

variable {chunker : Chunker}

/-- The branches of a node share out its span, one window each. -/
theorem spansOf_branches_treeAt {depth : Nat} (start : Nat) {content : Bytes}
    (positive : 0 < chunker.chunkSize) (full : chunker.window (depth + 1) ≤ content.size) :
    Tree.spansOf start (chunker.treeAt (depth + 1) content).branches =
      (List.range (branchCount (chunker.window (depth + 1)) content.size)).flatMap fun index =>
        Tree.spans (start + index * chunker.window (depth + 1))
          (chunker.treeAt depth (content.piece (chunker.window (depth + 1)) index)) := by
  have wide := window_pos positive (depth + 1)
  have pieces := Tree.spansOf_map_range' (chunker.window (depth + 1)) start
    (fun index => chunker.treeAt depth (content.piece (chunker.window (depth + 1)) index))
    (branchCount (chunker.window (depth + 1)) content.size) 0 fun index _ inside => by
      have next := (lt_branchCount_iff wide (index + 1) content.size).mp (by omega)
      rw [Nat.succ_mul] at next
      rw [size_treeAt, Bytes.size_piece]
      omega
  rw [Nat.zero_mul, Nat.add_zero] at pieces
  rw [treeAt_of_le full, nodeOf, Bytes.pieces, List.map_map, List.range_eq_range', ← pieces]
  simp only [List.map_map]
  rfl

/-- A node of a tree over some content covers something, and covers nothing else than content. -/
theorem bounds_of_mem_spans (positive : 0 < chunker.chunkSize) (depth : Nat) {start : Nat}
    {content : Bytes} (nonempty : 0 < content.size) {span : Span}
    (member : span ∈ Tree.spans start (chunker.treeAt depth content)) :
    start ≤ span.start ∧ span.start < span.stop ∧ span.stop ≤ start + content.size := by
  induction depth generalizing start content with
  | zero =>
      rw [treeAt, leafOf, Tree.spans, Tree.spansOf, List.mem_singleton] at member
      subst member
      simp only [Span.stop]
      omega
  | succ depth ih =>
      by_cases short : content.size < chunker.window (depth + 1)
      · rw [treeAt_of_lt short] at member
        exact ih nonempty member
      · have full := Nat.le_of_not_lt short
        rw [Tree.spans_eq, List.mem_cons, spansOf_branches_treeAt start positive full] at member
        rcases member with rfl | member
        · simp only [Span.stop, size_treeAt]
          omega
        · obtain ⟨index, counted, member⟩ := List.mem_flatMap.mp member
          have started := (lt_branchCount_iff (window_pos positive (depth + 1)) index content.size).mp
            (List.mem_range.mp counted)
          have wide := window_pos positive (depth + 1)
          have length := Bytes.size_piece (chunker.window (depth + 1)) content index
          have inside := ih (by omega) member
          omega

theorem bounds_of_mem_spansOf (positive : 0 < chunker.chunkSize) (depth : Nat) {start : Nat}
    {content : Bytes} (nonempty : 0 < content.size) {span : Span}
    (member : span ∈ Tree.spansOf start (chunker.treeAt depth content).branches) :
    start ≤ span.start ∧ span.start < span.stop ∧ span.stop ≤ start + content.size := by
  refine bounds_of_mem_spans positive depth nonempty ?_
  rw [Tree.spans_eq]
  exact List.mem_cons_of_mem _ member

/-- The nodes of a tree stand in the order of their positions, each before those below it. -/
theorem ordered_spans (positive : 0 < chunker.chunkSize) (depth start : Nat) (content : Bytes) :
    (Tree.spans start (chunker.treeAt depth content)).Pairwise Span.Before := by
  induction depth generalizing start content with
  | zero =>
      rw [treeAt, leafOf, Tree.spans, Tree.spansOf]
      exact List.pairwise_singleton _ _
  | succ depth ih =>
      by_cases short : content.size < chunker.window (depth + 1)
      · rw [treeAt_of_lt short]
        exact ih start content
      have full := Nat.le_of_not_lt short
      have wide := window_pos positive (depth + 1)
      rw [Tree.spans_eq, List.pairwise_cons]
      constructor
      · intro span member
        have below := (bounds_of_mem_spansOf positive (depth + 1) (by omega) member).1
        have smaller := Tree.sizeOf_lt_of_mem_spansOf member
        have whole := (chunker.treeAt (depth + 1) content).sizeOf_branches_lt
        rcases Nat.lt_or_eq_of_le below with earlier | same
        · exact .inl earlier
        · exact .inr ⟨same, Nat.lt_trans smaller whole⟩
      rw [spansOf_branches_treeAt start positive full, List.pairwise_flatMap]
      refine ⟨fun index _ => ih _ _, List.pairwise_lt_range.imp_of_mem ?_⟩
      intro earlier later counted laterCounted order span member laterSpan laterMember
      have length := Bytes.size_piece (chunker.window (depth + 1)) content
      have started := (lt_branchCount_iff wide earlier content.size).mp (List.mem_range.mp counted)
      have laterStarted :=
        (lt_branchCount_iff wide later content.size).mp (List.mem_range.mp laterCounted)
      have here := length earlier
      have there := length later
      have inside := bounds_of_mem_spans positive depth (by omega) member
      have laterInside := bounds_of_mem_spans positive depth (by omega) laterMember
      have apart : earlier * chunker.window (depth + 1) + chunker.window (depth + 1) ≤
          later * chunker.window (depth + 1) := by
        rw [← Nat.succ_mul]
        exact Nat.mul_le_mul_right _ order
      exact .inl (by omega)

/-- The nodes of a tree start in the order in which they stand. -/
theorem sorted_spans (positive : 0 < chunker.chunkSize) (depth start : Nat) (content : Bytes) :
    (Tree.spans start (chunker.treeAt depth content)).Pairwise (·.start ≤ ·.start) := by
  refine (ordered_spans positive depth start content).imp fun before => ?_
  rcases before with earlier | ⟨same, -⟩
  · exact earlier.le
  · exact same.le

/-- No node of a tree stands at a position twice. -/
theorem nodup_spans (positive : 0 < chunker.chunkSize) (depth start : Nat) (content : Bytes) :
    (Tree.spans start (chunker.treeAt depth content)).Nodup := by
  refine (ordered_spans positive depth start content).imp fun before same => ?_
  subst same
  rcases before with earlier | ⟨-, smaller⟩
  · exact Nat.lt_irrefl _ earlier
  · exact Nat.lt_irrefl _ smaller

/-- What only the indexes from one on up to another add to is what these add. -/
theorem flatMap_range_eq {α : Type} {visit : Nat → List α} {low high size : Nat}
    (order : low ≤ high) (inside : high ≤ size)
    (outside : ∀ index, index < low ∨ high ≤ index → index < size → visit index = []) :
    (List.range size).flatMap visit = (List.range' low (high - low)).flatMap visit := by
  have left : List.range' 0 low ++ List.range' low (high - low) = List.range' 0 high := by
    have joined := List.range'_append_1 (s := 0) (m := low) (n := high - low)
    rwa [Nat.zero_add, Nat.add_sub_cancel' order] at joined
  have right : List.range' 0 high ++ List.range' high (size - high) = List.range' 0 size := by
    have joined := List.range'_append_1 (s := 0) (m := high) (n := size - high)
    rwa [Nat.zero_add, Nat.add_sub_cancel' inside] at joined
  have before : (List.range' 0 low).flatMap visit = [] := by
    rw [List.flatMap_eq_nil_iff]
    intro index member
    have := List.mem_range'_1.mp member
    exact outside index (.inl (by omega)) (by omega)
  have after : (List.range' high (size - high)).flatMap visit = [] := by
    rw [List.flatMap_eq_nil_iff]
    intro index member
    have := List.mem_range'_1.mp member
    exact outside index (.inr (by omega)) (by omega)
  rw [List.range_eq_range', ← right, ← left, List.flatMap_append, List.flatMap_append, before,
    after, List.nil_append, List.append_nil]

/-- **What a read comes to.** The nodes that a read of a range visits are those below the root whose
spans have something of the range, each before its branches. -/
theorem visits_eq (positive : 0 < chunker.chunkSize) (depth : Nat) (start : Nat) {content : Bytes}
    {position count : Nat} (nonempty : 0 < count) (inside : position + count ≤ content.size) :
    chunker.visits depth content position count =
      ((Tree.spansOf start (chunker.treeAt depth content).branches).filter
        (·.Meets (start + position) count)).map Span.node := by
  induction depth generalizing start content position count with
  | zero => rw [visits, treeAt, leafOf, Tree.spansOf, List.filter_nil, List.map_nil]
  | succ depth ih =>
      rw [visits]
      by_cases short : content.size < chunker.window (depth + 1)
      · rw [if_pos short, treeAt_of_lt short]
        exact ih start nonempty inside
      · have full := Nat.le_of_not_lt short
        have wide := window_pos positive (depth + 1)
        have order : position < position + count := Nat.lt_add_of_pos_right nonempty
        have length := Bytes.size_piece (chunker.window (depth + 1)) content
        rw [if_neg short, spansOf_branches_treeAt start positive full, List.filter_flatMap,
          List.map_flatMap]
        have reached : (position + count - 1) / chunker.window (depth + 1) + 1 ≤
            branchCount (chunker.window (depth + 1)) content.size :=
          (lt_branchCount_iff wide _ _).mpr
            (Nat.lt_of_le_of_lt (Nat.div_mul_le_self _ _) (by omega))
        rw [flatMap_range_eq (Nat.le_succ_of_le (Nat.div_le_div_right
          (by omega : position ≤ position + count - 1))) reached]
        · -- A branch that the range reaches is visited, and what it has of the range decides about
          -- the nodes below.
          apply List.flatMap_congr
          intro index meets
          obtain ⟨started, some, within⟩ := Bytes.clip_inside wide order inside meets
          rw [← length index] at some within
          simp only
          rw [Tree.spans_eq, List.filter_cons_of_pos, List.map_cons,
            ih (start + index * chunker.window (depth + 1)) some within]
          · congr 2
            apply List.filter_congr
            intro span member
            have inner := bounds_of_mem_spansOf positive depth (by omega) member
            rw [decide_eq_decide]
            simp only [Span.Meets]
            omega
          · rw [decide_eq_true_eq]
            simp only [Span.Meets, Span.stop, size_treeAt]
            omega
        · intro index apart counted
          have started := (lt_branchCount_iff wide index content.size).mp counted
          have here := length index
          have clear : index * chunker.window (depth + 1) + chunker.window (depth + 1) ≤ position ∨
              position + count ≤ index * chunker.window (depth + 1) := by
            rcases apart with early | late
            · left
              rw [← Nat.succ_mul]
              exact (Nat.le_div_iff_mul_le wide).mp early
            · right
              have past := (Nat.div_lt_iff_lt_mul wide).mp (Nat.lt_of_succ_le late)
              omega
          rw [List.map_eq_nil_iff, List.filter_eq_nil_iff]
          intro span member
          have inner := bounds_of_mem_spans positive depth (by omega) member
          rw [decide_eq_true_eq]
          simp only [Span.Meets]
          omega

end Chunker

end ChunkTree
