import ChunkTree.Proofs.Branching
import Mathlib.Algebra.Order.Floor.Div

/-!
# The leaves of a tree

Nothing in the program says how long a leaf is: it comes out of the levels that are dropped at
every place on the way down.  Still the leaves of any content are the pieces that one width cuts it
into, the window above the lowest places (`Chunker.filter_isLeaf_treeAt`).  So the leaves put
together are the content (`Chunker.partition_pieces`), and what comes behind the content changes
none of its leaves but the last, if that is not full.
-/

namespace ChunkTree

/-- The chunk has content behind its header and not keys: its data is as long as a header and the
content that it covers. -/
def Chunk.isLeaf (chunk : Chunk) : Bool :=
  match chunk.data with
  | some data => data.size = Header.length + chunk.size.toNat
  | none => false

/-- What a chunk has behind its header. -/
def Chunk.payload (chunk : Chunk) : Bytes :=
  match chunk.data with
  | some data => data.extract Header.length data.size
  | none => #[]

theorem branchCount_eq_ceilDiv {window : Nat} (positive : 0 < window) (size : Nat) :
    branchCount window size = size ⌈/⌉ window := by
  refine eq_of_forall_ge_iff fun count => ?_
  rw [branchCount_le_iff positive, ceilDiv_le_iff_le_mul positive, Nat.mul_comm]

/-- The leaves hold the pieces of the content: there are as many as the width has to be laid down to
reach its end, but at least one; each has its length in its header and its own range of the content
behind it; put together they are the content; and none is longer than the width. -/
structure Chunk.Partition (width : Nat) (content : Bytes) (leaves : List Chunk) : Prop where
  length_eq : leaves.length = max 1 (content.size ⌈/⌉ width)
  data : ∀ index leaf, leaves[index]? = some leaf →
    leaf.payload = content.extract (index * width) (min content.size ((index + 1) * width)) ∧
      leaf.size.toNat = leaf.payload.size ∧
      leaf.data = some (Header.encode leaf.size ++ leaf.payload)
  concat_payload : Bytes.concat (leaves.map Chunk.payload) = content
  short : ∀ leaf ∈ leaves, leaf.payload.size ≤ width

namespace Chunker

variable {chunker : Chunker}

theorem payload_leafOf (content : Bytes) :
    (chunker.chunkOf (leafOf content)).payload = content := by
  simp [Chunk.payload, chunkOf, leafOf]

/-- The chunk of a place is that of a leaf exactly if there are no branches below it. -/
theorem isLeaf_treeAt (small : chunker.keySize * chunker.branches < wordLimit) (depth : Nat)
    {content : Bytes} (word : content.size < wordLimit)
    (keyed : chunker.Keyed (chunker.treeAt depth content)) :
    (chunker.chunkOf (chunker.treeAt depth content)).isLeaf =
      (chunker.treeAt depth content).branches.isEmpty := by
  have counted : (UInt64.ofNat content.size).toNat = content.size := UInt64.toNat_ofNat_of_lt' word
  rcases treeAt_cases chunker depth content with leaf | ⟨lower, full, same⟩
  · rw [leaf]
    simp [Chunk.isLeaf, chunkOf, leafOf, counted]
  · rw [same] at keyed ⊢
    have wide := window_pos (chunkSize_pos small) (lower + 1)
    have fewer := branchCount_mul_keySize_lt small full
    have data := size_data_treeAt_of_le full keyed
    have below : (chunker.treeAt (lower + 1) content).branches.isEmpty = false := by
      rw [branches_treeAt_of_le full, List.isEmpty_map,
        Bytes.pieces_of_nonempty wide (Nat.lt_of_lt_of_le wide full)]
      rfl
    simp only [Chunk.isLeaf, chunkOf, size_treeAt, counted, data, below, decide_eq_false_iff_not]
    omega

/-- The leaves below a place hold the pieces of its content. -/
theorem filter_isLeaf_treeAt (small : chunker.keySize * chunker.branches < wordLimit) (depth : Nat)
    {content : Bytes} (nonempty : 0 < content.size)
    (reach : content.size ≤ chunker.window (depth + 1)) (word : content.size < wordLimit)
    (keyed : chunker.Keyed (chunker.treeAt depth content)) :
    ((chunker.treeAt depth content).postorder.map chunker.chunkOf).filter Chunk.isLeaf =
      (content.pieces (chunker.window 1)).map fun piece => chunker.chunkOf (leafOf piece) := by
  have positive := chunkSize_pos small
  induction depth generalizing content with
  | zero =>
      have leaf := isLeaf_treeAt small 0 word keyed
      rw [Bytes.pieces_of_le (window_pos positive 1) nonempty reach, Tree.postorder_eq]
      simp only [treeAt, leafOf] at leaf ⊢
      simp [leaf]
  | succ depth ih =>
      by_cases short : content.size < chunker.window (depth + 1)
      · rw [treeAt_of_lt short] at keyed ⊢
        exact ih nonempty short.le word keyed
      · have full := Nat.le_of_not_lt short
        have wide := window_pos positive (depth + 1)
        have node := isLeaf_treeAt small (depth + 1) word keyed
        rw [branches_treeAt_of_le full, List.isEmpty_map, Bytes.pieces_of_nonempty wide nonempty,
          List.isEmpty_cons] at node
        rw [Tree.postorder_eq, List.map_append, List.filter_append, List.map_cons, List.map_nil,
          List.filter_cons_of_neg (by rw [node]; exact Bool.false_ne_true), List.filter_nil,
          List.append_nil, branches_treeAt_of_le full, List.flatMap_map, List.map_flatMap,
          List.filter_flatMap, ← Bytes.flatMap_pieces (window_pos positive 1) wide
            (window_dvd (Nat.le_add_left 1 depth)), List.map_flatMap]
        apply List.flatMap_congr
        intro piece cut
        obtain ⟨within, least⟩ := Bytes.size_le_of_mem_pieces cut
        refine ih (Bytes.pos_size_of_mem_pieces wide cut) within (Nat.lt_of_le_of_lt least word)
          (keyed.branch ?_)
        rw [branches_treeAt_of_le full]
        exact List.mem_map_of_mem cut

/-- Whatever the content is, its leaves are the first piece and those behind it. -/
theorem leaves_of_chunksOf (small : chunker.keySize * chunker.branches < wordLimit)
    {content : Bytes} {root : Key} {chunks : Array Chunk}
    (split : chunker.chunksOf content = .ok (root, chunks)) :
    chunks.toList.filter Chunk.isLeaf =
      (List.range (max 1 (branchCount (chunker.window 1) content.size))).map fun index =>
        chunker.chunkOf (leafOf (content.piece (chunker.window 1) index)) := by
  have positive := chunkSize_pos small
  obtain ⟨tree, covered, keyed, -, rfl⟩ := (chunksOf_eq_ok_iff positive).mp split
  obtain ⟨shape, fits, rfl⟩ := treeOf_eq_ok_iff.mp covered
  obtain ⟨-, reach, word⟩ := window_of_shapeOf fits
  have counted := Nat.lt_of_le_of_lt reach word
  rcases Nat.eq_zero_or_pos content.size with empty | nonempty
  · have leaf := treeAt_of_empty positive shape.depth empty
    have alone := isLeaf_treeAt small shape.depth counted keyed
    obtain rfl := Array.eq_empty_of_size_eq_zero empty
    rw [leaf] at alone
    rw [leaf, Tree.postorder_eq, Array.size_empty, branchCount_zero]
    simp_all [leafOf, Bytes.piece, Bytes.slice]
  · have some : 1 ≤ branchCount (chunker.window 1) content.size := by
      rw [Nat.one_le_iff_ne_zero, ← Nat.pos_iff_ne_zero, lt_branchCount_iff (window_pos positive 1)]
      omega
    rw [max_eq_right some, filter_isLeaf_treeAt small shape.depth nonempty
      (le_window_succ_of_shapeOf fits) counted keyed, Bytes.pieces, List.map_map]
    rfl

/-- The leaf at an index is that of the piece at this index. -/
theorem getElem?_leaves (small : chunker.keySize * chunker.branches < wordLimit) {content : Bytes}
    {root : Key} {chunks : Array Chunk} (split : chunker.chunksOf content = .ok (root, chunks))
    {index : Nat} (started : index * chunker.window 1 < content.size) :
    (chunks.toList.filter Chunk.isLeaf)[index]? =
      some (chunker.chunkOf (leafOf (content.piece (chunker.window 1) index))) := by
  have counted := (lt_branchCount_iff (window_pos (chunkSize_pos small) 1) _ _).mpr started
  rw [leaves_of_chunksOf small split, List.getElem?_map,
    List.getElem?_range (Nat.lt_of_lt_of_le counted (le_max_right _ _)), Option.map_some]

/-- Leaves that hold the pieces of the content are its partition. -/
theorem partition_pieces {width : Nat} (positive : 0 < width) {content : Bytes}
    (word : content.size < wordLimit) :
    Chunk.Partition width content
      ((List.range (max 1 (branchCount width content.size))).map fun index =>
        chunker.chunkOf (leafOf (content.piece width index))) where
  length_eq := by
    rw [List.length_map, List.length_range, branchCount_eq_ceilDiv positive]
  data index leaf found := by
    obtain ⟨_, inside, rfl⟩ := List.getElem?_eq_some_iff.mp found
    have length := Bytes.size_piece width content index
    have range : content.piece width index =
        content.extract (index * width) (min content.size ((index + 1) * width)) := by
      rw [Bytes.piece, Bytes.slice, Nat.succ_mul, Array.extract_eq_extract_right]
      omega
    have counted : (content.piece width index).size < wordLimit := by
      rw [length]
      omega
    simp only [List.getElem_map, List.getElem_range, payload_leafOf]
    exact ⟨range, UInt64.toNat_ofNat_of_lt' counted, rfl⟩
  concat_payload := by
    rw [List.map_map]
    simp only [Function.comp_def, payload_leafOf]
    rcases Nat.eq_zero_or_pos content.size with empty | nonempty
    · obtain rfl := Array.eq_empty_of_size_eq_zero empty
      simp [Bytes.piece, Bytes.slice]
    · rw [max_eq_right ((lt_branchCount_iff positive 0 _).mpr (by omega))]
      exact Bytes.concat_pieces positive content
  short leaf member := by
    obtain ⟨index, -, rfl⟩ := List.mem_map.mp member
    rw [payload_leafOf, Bytes.size_piece]
    exact Nat.min_le_left _ _

/-- **The leaves of content.** Let a tree cover some content.  With a hasher that keeps to its
digest length the content is split; and whenever it is split, its leaves are the pieces that the
window above the lowest places cuts it into, in their order.  When more content stands behind it,
its full leaves stay as they are. -/
theorem partition_of_shapeOf (small : chunker.keySize * chunker.branches < wordLimit)
    {content : Bytes} {shape : Shape} (covered : chunker.shapeOf content.size = .ok shape) :
    (chunker.hasher.Honest → ∃ root chunks, chunker.chunksOf content = .ok (root, chunks)) ∧
      ∀ root chunks, chunker.chunksOf content = .ok (root, chunks) →
        Chunk.Partition (chunker.keySize * chunker.branches * chunker.branches) content
          (chunks.toList.filter Chunk.isLeaf) ∧
        ∀ more next longer, chunker.chunksOf (content ++ more) = .ok (next, longer) →
          ∀ index, (index + 1) * (chunker.keySize * chunker.branches * chunker.branches) ≤
            content.size → ∃ leaf, (chunks.toList.filter Chunk.isLeaf)[index]? = some leaf ∧
              (longer.toList.filter Chunk.isLeaf)[index]? = some leaf := by
  have positive := chunkSize_pos small
  have wide := window_pos positive 1
  obtain ⟨-, reach, word⟩ := window_of_shapeOf covered
  rw [← window_one small]
  constructor
  · intro honest
    exact ⟨_, _, chunksOf_of_shapeOf positive honest covered⟩
  · intro root chunks split
    constructor
    · rw [leaves_of_chunksOf small split]
      exact partition_pieces wide (Nat.lt_of_le_of_lt reach word)
    · intro more next longer splitMore index full
      have started : index * chunker.window 1 < content.size := by
        rw [Nat.succ_mul] at full
        omega
      have startedMore : index * chunker.window 1 < (content ++ more).size := by
        rw [Array.size_append]
        omega
      refine ⟨_, getElem?_leaves small split started, ?_⟩
      rw [getElem?_leaves small splitMore startedMore, Bytes.piece_append_left more full]

/-- Five bytes have a full leaf and another, and with three more the second is full as well. -/
theorem partition_of_shapeOf_five_bytes :
    tiny.keySize * tiny.branches < wordLimit ∧
      tiny.shapeOf (#[1, 2, 3, 4, 5] : Bytes).size = .ok ⟨2, 8⟩ ∧
      Chunk.Partition 4 #[1, 2, 3, 4, 5] tinyLeaves ∧
      ∀ next longer, tiny.chunksOf #[1, 2, 3, 4, 5, 6, 7, 8] = .ok (next, longer) →
        (longer.toList.filter Chunk.isLeaf)[0]? = tinyLeaves[0]? := by
  have covered : tiny.shapeOf (#[1, 2, 3, 4, 5] : Bytes).size = .ok ⟨2, 8⟩ := by
    decide +kernel
  have known : tiny.chunksOf #[1, 2, 3, 4, 5] =
      .ok (tinyRoot.key, (tinyLeaves ++ [tinyRoot]).toArray) := by
    decide +kernel
  obtain ⟨partition, stays⟩ := (partition_of_shapeOf (by decide) covered).2 _ _ known
  refine ⟨by decide, covered, partition, fun next longer split => ?_⟩
  obtain ⟨leaf, before, after⟩ := stays #[6, 7, 8] next longer split 0 (by decide)
  exact after.trans before.symm

end Chunker

end ChunkTree
