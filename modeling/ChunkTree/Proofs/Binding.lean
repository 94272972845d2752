import ChunkTree.Proofs.Emission

/-!
# What a root key binds

The key of a root binds all of the content: two contents with one root key are the same, or a chunk
of the one and a chunk of the other are different data with one digest.  The header of the root
gives both trees one shape, and from there equal data of two nodes gives their branches equal keys.
-/

namespace ChunkTree.Chunker

variable {chunker : Chunker}

variable (chunker) in
/-- A node of the one tree and a node of the other have different data with one digest. -/
def Collide (first second : Tree) : Prop :=
  ∃ node ∈ first.preorder, ∃ other ∈ second.preorder,
    node.data ≠ other.data ∧ chunker.hasher.digest node.data = chunker.hasher.digest other.data

theorem Collide.of_branches {first second branch other : Tree}
    (collide : chunker.Collide branch other) (below : branch ∈ first.branches)
    (otherBelow : other ∈ second.branches) : chunker.Collide first second := by
  obtain ⟨node, member, otherNode, otherMember, different, same⟩ := collide
  exact ⟨node, Tree.mem_preorder_of_branch below member, otherNode,
    Tree.mem_preorder_of_branch otherBelow otherMember, different, same⟩

theorem data_eq_of_not_collide {first second : Tree} (apart : ¬ chunker.Collide first second)
    (same : chunker.nameOf first.data = chunker.nameOf second.data) : first.data = second.data := by
  by_contra different
  exact apart ⟨first, first.mem_preorder_self, second, second.mem_preorder_self, different,
    congrArg Key.bytes same⟩

/-- Nodes with the same data have branches with the same keys. -/
theorem names_eq_of_nodeOf {size : Nat} {first second : List Tree}
    (firstKeyed : chunker.Keyed (chunker.nodeOf size first))
    (secondKeyed : chunker.Keyed (chunker.nodeOf size second))
    (same : (chunker.nodeOf size first).data = (chunker.nodeOf size second).data) :
    first.map (fun branch => chunker.nameOf branch.data) =
      second.map (fun branch => chunker.nameOf branch.data) := by
  have bodies := (Array.append_inj same rfl).2
  have blocks := Bytes.blocks_eq_of_concat_eq chunker.keySize_pos firstKeyed.size_of_mem_names
    secondKeyed.size_of_mem_names bodies
  have keys := congrArg (List.map Key.mk) blocks
  simpa only [List.map_map, Function.comp_def] using keys

/-- Contents of one size with one key are the same, unless chunks of their trees collide. -/
theorem eq_of_name_eq (positive : 0 < chunker.chunkSize) (depth : Nat) {first second : Bytes}
    (sizes : first.size = second.size) (firstKeyed : chunker.Keyed (chunker.treeAt depth first))
    (secondKeyed : chunker.Keyed (chunker.treeAt depth second))
    (apart : ¬ chunker.Collide (chunker.treeAt depth first) (chunker.treeAt depth second))
    (same : chunker.nameOf (chunker.treeAt depth first).data =
      chunker.nameOf (chunker.treeAt depth second).data) : first = second := by
  induction depth generalizing first second with
  | zero =>
      have data : Header.encode _ ++ first = Header.encode _ ++ second :=
        data_eq_of_not_collide apart same
      rw [sizes] at data
      exact (Array.append_inj data rfl).2
  | succ depth ih =>
      by_cases short : first.size < chunker.window (depth + 1)
      · have otherShort : second.size < chunker.window (depth + 1) := sizes ▸ short
        rw [treeAt_of_lt short] at firstKeyed apart same
        rw [treeAt_of_lt otherShort] at secondKeyed apart same
        exact ih sizes firstKeyed secondKeyed apart same
      · have full := Nat.le_of_not_lt short
        have otherFull : chunker.window (depth + 1) ≤ second.size := sizes ▸ full
        rw [treeAt_of_le full] at firstKeyed apart same
        rw [treeAt_of_le otherFull, ← sizes] at secondKeyed apart same
        have names := names_eq_of_nodeOf firstKeyed secondKeyed (data_eq_of_not_collide apart same)
        have wide := window_pos positive (depth + 1)
        have pieces : first.pieces (chunker.window (depth + 1)) =
            second.pieces (chunker.window (depth + 1)) := by
          apply List.ext_getElem
          · rw [Bytes.length_pieces, Bytes.length_pieces, sizes]
          · intro index inside otherInside
            have below : chunker.treeAt depth (first.pieces (chunker.window (depth + 1)))[index] ∈
                (first.pieces (chunker.window (depth + 1))).map (chunker.treeAt depth) :=
              List.mem_map_of_mem (List.getElem_mem inside)
            have otherBelow :
                chunker.treeAt depth (second.pieces (chunker.window (depth + 1)))[index] ∈
                (second.pieces (chunker.window (depth + 1))).map (chunker.treeAt depth) :=
              List.mem_map_of_mem (List.getElem_mem otherInside)
            refine ih ?_ (firstKeyed.branch below) (secondKeyed.branch otherBelow)
              (fun collide => apart (collide.of_branches below otherBelow)) ?_
            · simp only [Bytes.pieces, List.getElem_map, List.getElem_range, Bytes.size_piece,
                sizes]
            · have name := List.getElem_of_eq names (i := index)
                (by simpa only [List.length_map] using inside)
              simpa only [List.getElem_map] using name
        rw [← Bytes.concat_pieces wide first, pieces, Bytes.concat_pieces wide second]

/-- **The root key binds the whole content.** If two different contents, of one length or not, have
one root key, then a chunk of the one and a chunk of the other are a collision of the hasher. -/
theorem collision_of_same_root (small : chunker.keySize * chunker.branches < wordLimit)
    {first second : Bytes} {root : Key} {firstChunks secondChunks : Array Chunk}
    (firstSplit : chunker.chunksOf first = .ok (root, firstChunks))
    (secondSplit : chunker.chunksOf second = .ok (root, secondChunks))
    (different : first ≠ second) :
    ∃ one ∈ firstChunks, ∃ other ∈ secondChunks, one.key = other.key ∧
      ∃ data otherData, one.data = some data ∧ other.data = some otherData ∧ data ≠ otherData ∧
        chunker.hasher.digest data = chunker.hasher.digest otherData := by
  have positive := chunkSize_pos small
  obtain ⟨tree, covered, keyed, rfl, rfl⟩ := (chunksOf_eq_ok_iff positive).mp firstSplit
  obtain ⟨otherTree, otherCovered, otherKeyed, sameRoot, rfl⟩ :=
    (chunksOf_eq_ok_iff positive).mp secondSplit
  have collide : chunker.Collide tree otherTree := by
    by_contra apart
    obtain ⟨shape, fits, rfl⟩ := treeOf_eq_ok_iff.mp covered
    obtain ⟨otherShape, otherFits, rfl⟩ := treeOf_eq_ok_iff.mp otherCovered
    -- One header, so one size, and the size alone fixes the shape.
    have headers := congrArg Header.decode (data_eq_of_not_collide apart sameRoot.symm)
    rw [decode_treeAt, decode_treeAt, Except.ok.injEq] at headers
    have sizes : first.size = second.size := by
      obtain ⟨-, reach, word⟩ := window_of_shapeOf fits
      obtain ⟨-, otherReach, otherWord⟩ := window_of_shapeOf otherFits
      have words := congrArg UInt64.toNat headers
      rwa [UInt64.toNat_ofNat_of_lt' (Nat.lt_of_le_of_lt reach word),
        UInt64.toNat_ofNat_of_lt' (Nat.lt_of_le_of_lt otherReach otherWord)] at words
    rw [← sizes, fits, Except.ok.injEq] at otherFits
    subst otherFits
    exact different (eq_of_name_eq positive _ sizes keyed otherKeyed apart sameRoot.symm)
  obtain ⟨node, member, other, otherMember, unequal, digests⟩ := collide
  exact ⟨chunker.chunkOf node, chunkOf_mem_postorder member, chunker.chunkOf other,
    chunkOf_mem_postorder otherMember, congrArg Key.mk digests, node.data, other.data, rfl, rfl,
    unequal, digests⟩

/-- The contents differ in the order of two bytes, which their sum does not see. -/
theorem collision_of_swapped_bytes :
    ∃ root firstChunks secondChunks, tiny.chunksOf #[1, 2, 3, 4, 5] = .ok (root, firstChunks) ∧
      tiny.chunksOf #[2, 1, 3, 4, 5] = .ok (root, secondChunks) ∧
      ∃ one ∈ firstChunks, ∃ other ∈ secondChunks, one.key = other.key ∧
        ∃ data otherData, one.data = some data ∧ other.data = some otherData ∧ data ≠ otherData ∧
          tiny.hasher.digest data = tiny.hasher.digest otherData := by
  have firstSplit : tiny.chunksOf #[1, 2, 3, 4, 5] =
      .ok (tinyRoot.key, (tinyLeaves ++ [tinyRoot]).toArray) := by
    decide +kernel
  have secondSplit : tiny.chunksOf #[2, 1, 3, 4, 5] = .ok (tinyRoot.key,
      #[⟨⟨#[14]⟩, some #[4, 0, 0, 0, 0, 0, 0, 0, 2, 1, 3, 4], 4⟩,
        ⟨⟨#[6]⟩, some #[1, 0, 0, 0, 0, 0, 0, 0, 5], 1⟩, tinyRoot]) := by
    decide +kernel
  exact ⟨_, _, _, firstSplit, secondSplit,
    collision_of_same_root (by decide) firstSplit secondSplit (by decide)⟩

end ChunkTree.Chunker
