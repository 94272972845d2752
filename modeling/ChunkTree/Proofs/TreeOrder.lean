import ChunkTree.Proofs.Recording

/-!
# The tree in the order of its chunks

The chunks of some content come out as the chunks of a tree do, each after those below it
(`Subtree.Built`).  What the program never states holds at every node of it: the section of a node
has at most as much content as the window above its place, so a node has no more branches than the
branching factor, and it has a single one only where the content fills its window exactly
(`Chunker.built_subtreeAt`).
-/

namespace ChunkTree

/-- A chunk with the chunks below it, in the order in which they are made, itself the last.  The
depth is what is left of the depth of its place after levels are dropped. -/
structure Subtree where
  depth : Nat
  root : Chunk
  chunks : List Chunk

/-- The chunks are made in the order of a tree, and the sizes, keys and depths in it belong
together. -/
inductive Subtree.Built (chunker : Chunker) : Subtree → Prop
  /-- A leaf has its content behind the header. -/
  | leaf {root : Chunk} {payload : Bytes}
      (data : root.data = some (Header.encode root.size ++ payload))
      (size : root.size.toNat = payload.size) :
      Built chunker ⟨0, root, [root]⟩
  /-- A node has the keys of its branches behind the header, and comes right after their chunks. -/
  | node {depth : Nat} {root : Chunk} {branches : List Subtree}
      (built : ∀ branch ∈ branches, Built chunker branch)
      (depths : ∀ branch ∈ branches, branch.depth = (Shape.settle chunker.branches
        branch.root.size.toNat depth (chunker.keySize * chunker.branches ^ (depth + 1))).depth)
      (data : root.data = some (Header.encode root.size ++
        Bytes.concat (branches.map fun branch => branch.root.key.bytes)))
      (size : root.size.toNat = (branches.map fun branch => branch.root.size.toNat).sum)
      (some : 1 ≤ branches.length) (most : branches.length ≤ chunker.branches)
      (single : branches.length = 1 ↔
        root.size.toNat = chunker.keySize * chunker.branches ^ (depth + 2)) :
      Built chunker ⟨depth + 1, root, branches.flatMap Subtree.chunks ++ [root]⟩

namespace Chunker

variable (chunker : Chunker)

/-- What is made of some content at a place of this depth. -/
def subtreeAt (depth : Nat) (content : Bytes) : Subtree where
  depth := (Shape.settle chunker.branches content.size depth (chunker.window depth)).depth
  root := chunker.chunkOf (chunker.treeAt depth content)
  chunks := (chunker.treeAt depth content).postorder.map chunker.chunkOf

variable {chunker}

theorem subtreeAt_zero (content : Bytes) : chunker.subtreeAt 0 content =
    ⟨0, chunker.chunkOf (leafOf content), [chunker.chunkOf (leafOf content)]⟩ := by
  rw [subtreeAt, treeAt, Tree.postorder_eq]
  rfl

theorem subtreeAt_of_lt {depth : Nat} {content : Bytes}
    (short : content.size < chunker.window (depth + 1)) :
    chunker.subtreeAt (depth + 1) content = chunker.subtreeAt depth content := by
  rw [subtreeAt, subtreeAt, treeAt_of_lt short, Shape.settle_of_lt short, window_succ_div]

/-- The chunk of a node comes after those of its branches. -/
theorem subtreeAt_of_le {depth : Nat} {content : Bytes}
    (full : chunker.window (depth + 1) ≤ content.size) :
    chunker.subtreeAt (depth + 1) content =
      ⟨depth + 1, chunker.chunkOf (chunker.treeAt (depth + 1) content),
        ((content.pieces (chunker.window (depth + 1))).map (chunker.subtreeAt depth)).flatMap
          Subtree.chunks ++ [chunker.chunkOf (chunker.treeAt (depth + 1) content)]⟩ := by
  rw [subtreeAt, Shape.settle_of_le full, Tree.postorder_eq, branches_treeAt_of_le full,
    List.map_append, List.map_flatMap, List.flatMap_map, List.flatMap_map]
  rfl

theorem toNat_size_subtreeAt (depth : Nat) {content : Bytes} (word : content.size < wordLimit) :
    (chunker.subtreeAt depth content).root.size.toNat = content.size := by
  simp only [subtreeAt, chunkOf, size_treeAt]
  exact UInt64.toNat_ofNat_of_lt' word

/-- **The invariant of a tree.** What is made of some content at a place is made in the order of a
tree, if the content has no more than the window above the place. -/
theorem built_subtreeAt (small : chunker.keySize * chunker.branches < wordLimit) (depth : Nat)
    {content : Bytes} (reach : content.size ≤ chunker.window (depth + 1))
    (word : content.size < wordLimit) : (chunker.subtreeAt depth content).Built chunker := by
  induction depth generalizing content with
  | zero =>
      rw [subtreeAt_zero]
      exact .leaf rfl (UInt64.toNat_ofNat_of_lt' word)
  | succ depth ih =>
      by_cases short : content.size < chunker.window (depth + 1)
      · rw [subtreeAt_of_lt short]
        exact ih short.le word
      · have full := Nat.le_of_not_lt short
        have positive := chunkSize_pos small
        have wide := window_pos positive (depth + 1)
        have pieces : ∀ piece ∈ content.pieces (chunker.window (depth + 1)),
            piece.size ≤ chunker.window (depth + 1) ∧ piece.size < wordLimit := by
          intro piece cut
          obtain ⟨within, least⟩ := Bytes.size_le_of_mem_pieces cut
          exact ⟨within, Nat.lt_of_le_of_lt least word⟩
        have root : (chunker.subtreeAt (depth + 1) content).root.size.toNat = content.size :=
          toNat_size_subtreeAt (depth + 1) word
        have count : ((content.pieces (chunker.window (depth + 1))).map
            (chunker.subtreeAt depth)).length =
              branchCount (chunker.window (depth + 1)) content.size := by
          rw [List.length_map, Bytes.length_pieces]
        rw [subtreeAt_of_le full] at root ⊢
        refine .node ?_ ?_ ?_ ?_ ?_ ?_ ?_
        · intro branch below
          obtain ⟨piece, cut, rfl⟩ := List.mem_map.mp below
          exact ih (pieces piece cut).1 (pieces piece cut).2
        · intro branch below
          obtain ⟨piece, cut, rfl⟩ := List.mem_map.mp below
          rw [toNat_size_subtreeAt depth (pieces piece cut).2, ← window_eq_pow small]
          rfl
        · rw [List.map_map, treeAt_of_le full]
          simp only [chunkOf, nodeOf, List.map_map]
          rfl
        · have sizes : ((content.pieces (chunker.window (depth + 1))).map
              (chunker.subtreeAt depth)).map (fun branch => branch.root.size.toNat) =
                (content.pieces (chunker.window (depth + 1))).map Array.size := by
            rw [List.map_map]
            exact List.map_congr_left fun piece cut =>
              toNat_size_subtreeAt depth (pieces piece cut).2
          rw [root, sizes, ← Bytes.size_concat, Bytes.concat_pieces wide]
        · rw [count, Nat.one_le_iff_ne_zero, ← Nat.pos_iff_ne_zero, lt_branchCount_iff wide]
          omega
        · rw [count]
          exact branchCount_le_branches positive reach
        · rw [count, root, ← window_eq_pow small]
          exact branchCount_eq_one_iff wide full

/-- **Every tree is in order.** Let a hasher keep to its digest length, and let a tree cover some
content.  Then the content is split; every chunk has the digest of its data as its key, as long as
keys are, and its size at the start of its data; and the chunks are made in the order of a tree, of
which the last is the root: it covers all of the content and has the key that the split answers. -/
theorem built_of_shapeOf (small : chunker.keySize * chunker.branches < wordLimit)
    (honest : chunker.hasher.Honest) {content : Bytes} {shape : Shape}
    (covered : chunker.shapeOf content.size = .ok shape) :
    ∃ (root : Key) (chunks : Array Chunk) (subtree : Subtree),
      chunker.chunksOf content = .ok (root, chunks) ∧
      (∀ chunk ∈ chunks, ∃ data, chunk.data = some data ∧
        chunk.key.bytes = chunker.hasher.digest data ∧ chunk.key.bytes.size = chunker.keySize ∧
        Header.decode data = .ok chunk.size) ∧
      subtree.Built chunker ∧ subtree.chunks = chunks.toList ∧
      subtree.depth = (shape.normalize chunker.branches content.size).depth ∧
      chunks.back? = some subtree.root ∧ subtree.root.size.toNat = content.size ∧
      subtree.root.key = root := by
  have chunks := chunksOf_of_shapeOf (chunkSize_pos small) honest covered
  obtain ⟨window, reach, word⟩ := window_of_shapeOf covered
  have counted := Nat.lt_of_le_of_lt reach word
  refine ⟨_, _, chunker.subtreeAt shape.depth content, chunks, ?_,
    built_subtreeAt small _ (le_window_succ_of_shapeOf covered) counted, rfl, ?_, ?_,
    toNat_size_subtreeAt _ counted, rfl⟩
  · intro chunk member
    obtain ⟨node, -, rfl⟩ := List.mem_map.mp (List.mem_toArray.mp member)
    have handed : chunker.chunkOf node ∈ chunker.emission content := by
      rw [(chunksOf_eq_ok_iff_emission.mp chunks).2]
      exact Array.mem_toList_iff.mpr member
    obtain ⟨data, holds, states⟩ := stamped_of_mem_emission handed
    refine ⟨data, holds, ?_, ?_, states⟩
    · cases holds
      rfl
    · exact honest node.data
  · rw [Shape.normalize, window]
    rfl
  · rw [Tree.postorder_eq]
    simp [subtreeAt]

/-- Five bytes are split into two leaves and the root above them. -/
theorem built_of_shapeOf_five_bytes :
    tiny.keySize * tiny.branches < wordLimit ∧ tiny.hasher.Honest ∧
      tiny.shapeOf (#[1, 2, 3, 4, 5] : Bytes).size = .ok ⟨2, 8⟩ ∧
      ∃ subtree : Subtree, subtree.Built tiny ∧ subtree.chunks = tinyLeaves ++ [tinyRoot] ∧
        subtree.depth = 1 ∧ subtree.root = tinyRoot := by
  have covered : tiny.shapeOf (#[1, 2, 3, 4, 5] : Bytes).size = .ok ⟨2, 8⟩ := by
    decide +kernel
  have known : tiny.chunksOf #[1, 2, 3, 4, 5] =
      .ok (tinyRoot.key, (tinyLeaves ++ [tinyRoot]).toArray) := by
    decide +kernel
  refine ⟨by decide, fun _ => rfl, covered, ?_⟩
  obtain ⟨root, chunks, subtree, split, -, built, order, depth, last, -, -⟩ :=
    built_of_shapeOf (by decide) (fun _ => rfl) covered
  rw [known, Except.ok.injEq, Prod.mk.injEq] at split
  obtain ⟨rfl, rfl⟩ := split
  refine ⟨subtree, built, order, depth.trans (by decide +kernel), ?_⟩
  exact (Option.some.inj last).symm

end Chunker

end ChunkTree
