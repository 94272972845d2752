import ChunkTree.Proofs.Pieces
import ChunkTree.Proofs.Windows

/-!
# The tree over some content

Splitting and joining both walk a tree that exists only as chunks.  Here the tree is a value: each
of its nodes has the data of its chunk and the branches below it, and `Chunker.treeOf` is the tree
of some content.  Splitting hands out its chunks with the branches of a node first
(`Tree.postorder`); reading comes to a node before its branches (`Tree.preorder`).
-/

namespace ChunkTree

/-- The data of a chunk, with the length of the content covered and the chunks below it. -/
structure Tree where
  size : Nat
  data : Bytes
  branches : List Tree

namespace Tree

/-- The nodes of a tree, each before its branches. -/
def preorder : Tree → List Tree
  | ⟨size, data, branches⟩ => ⟨size, data, branches⟩ :: branches.flatMap preorder

/-- The nodes of a tree, each after its branches. -/
def postorder : Tree → List Tree
  | ⟨size, data, branches⟩ => branches.flatMap postorder ++ [⟨size, data, branches⟩]

theorem preorder_eq (tree : Tree) : tree.preorder = tree :: tree.branches.flatMap preorder := by
  rcases tree with ⟨size, data, branches⟩
  rw [preorder]

theorem postorder_eq (tree : Tree) :
    tree.postorder = tree.branches.flatMap postorder ++ [tree] := by
  rcases tree with ⟨size, data, branches⟩
  rw [postorder]

@[simp]
theorem mem_preorder_self (tree : Tree) : tree ∈ tree.preorder := by
  rw [preorder_eq]
  exact List.mem_cons_self

theorem mem_preorder_of_branch {tree branch node : Tree} (below : branch ∈ tree.branches)
    (member : node ∈ branch.preorder) : node ∈ tree.preorder := by
  rw [preorder_eq]
  exact List.mem_cons_of_mem _ (List.mem_flatMap_of_mem below member)

/-- Both orders have the same nodes. -/
theorem mem_postorder {node tree : Tree} : node ∈ tree.postorder ↔ node ∈ tree.preorder := by
  fun_induction preorder tree with
  | case1 size data branches ih =>
      rw [postorder, List.mem_append, List.mem_singleton, List.mem_cons, or_comm, List.mem_flatMap,
        List.mem_flatMap]
      refine or_congr_right (exists_congr fun branch => and_congr_right fun below => ?_)
      exact ih branch below

end Tree

namespace Chunker

variable (chunker : Chunker)

/-- The digest of data as a key, whatever its length. -/
def nameOf (data : Bytes) : Key := ⟨chunker.hasher.digest data⟩

/-- A digest is a key exactly if it is as long as keys are. -/
theorem keyOf_eq_ok_iff {data : Bytes} {key : Key} :
    chunker.keyOf data = .ok key ↔
      (chunker.hasher.digest data).size = chunker.keySize ∧ chunker.nameOf data = key := by
  unfold keyOf nameOf
  by_cases long : (chunker.hasher.digest data).size = chunker.keySize
  · simp only [long, ↓reduceIte, Except.ok.injEq, true_and]
  · simp only [long, ↓reduceIte, reduceCtorEq, false_and]

/-- Every chunk of the tree has a digest as long as keys are. -/
def Keyed (tree : Tree) : Prop :=
  ∀ node ∈ tree.preorder, (chunker.hasher.digest node.data).size = chunker.keySize

/-- The chunk of a node. -/
def chunkOf (tree : Tree) : Chunk :=
  ⟨chunker.nameOf tree.data, some tree.data, UInt64.ofNat tree.size⟩

/-- A leaf over some content. -/
def leafOf (content : Bytes) : Tree :=
  ⟨content.size, Header.encode (UInt64.ofNat content.size) ++ content, []⟩

/-- A node over some branches, which cover content of this size. -/
def nodeOf (size : Nat) (branches : List Tree) : Tree :=
  ⟨size, Header.encode (UInt64.ofNat size) ++
    Bytes.concat (branches.map fun branch => (chunker.nameOf branch.data).bytes), branches⟩

/-- The tree over some content at a place of this depth. -/
def treeAt : (depth : Nat) → Bytes → Tree
  | 0, content => leafOf content
  | depth + 1, content =>
    if content.size < chunker.window (depth + 1) then treeAt depth content
    else chunker.nodeOf content.size
      ((content.pieces (chunker.window (depth + 1))).map (treeAt depth))

/-- The tree over some content, unless no tree covers it. -/
def treeOf (content : Bytes) : Except Fault Tree := do
  let shape ← chunker.shapeOf content.size
  return chunker.treeAt shape.depth content

variable {chunker}

theorem treeAt_of_lt {depth : Nat} {content : Bytes}
    (short : content.size < chunker.window (depth + 1)) :
    chunker.treeAt (depth + 1) content = chunker.treeAt depth content := by
  rw [treeAt, if_pos short]

theorem treeAt_of_le {depth : Nat} {content : Bytes}
    (full : chunker.window (depth + 1) ≤ content.size) :
    chunker.treeAt (depth + 1) content = chunker.nodeOf content.size
      ((content.pieces (chunker.window (depth + 1))).map (chunker.treeAt depth)) := by
  rw [treeAt, if_neg (Nat.not_lt_of_le full)]

theorem branches_treeAt_of_le {depth : Nat} {content : Bytes}
    (full : chunker.window (depth + 1) ≤ content.size) :
    (chunker.treeAt (depth + 1) content).branches =
      (content.pieces (chunker.window (depth + 1))).map (chunker.treeAt depth) := by
  rw [treeAt_of_le full]
  rfl

theorem size_treeAt (depth : Nat) (content : Bytes) :
    (chunker.treeAt depth content).size = content.size := by
  induction depth with
  | zero => rfl
  | succ depth ih =>
      by_cases short : content.size < chunker.window (depth + 1)
      · rw [treeAt_of_lt short, ih]
      · rw [treeAt_of_le (Nat.le_of_not_lt short)]
        rfl

/-- The data of every chunk states the length of the content covered. -/
theorem decode_treeAt (depth : Nat) (content : Bytes) :
    Header.decode (chunker.treeAt depth content).data = .ok (UInt64.ofNat content.size) := by
  induction depth with
  | zero => exact Header.decode_encode_append _ _
  | succ depth ih =>
      by_cases short : content.size < chunker.window (depth + 1)
      · rw [treeAt_of_lt short, ih]
      · rw [treeAt_of_le (Nat.le_of_not_lt short)]
        exact Header.decode_encode_append _ _

theorem treeOf_eq_ok_iff {content : Bytes} {tree : Tree} :
    chunker.treeOf content = .ok tree ↔
      ∃ shape, chunker.shapeOf content.size = .ok shape ∧
        chunker.treeAt shape.depth content = tree := by
  unfold treeOf
  cases chunker.shapeOf content.size with
  | error fault => simp [bind, Except.bind]
  | ok shape => simp [bind, Except.bind, pure, Except.pure]

theorem chunkOf_mem_postorder {tree node : Tree} (member : node ∈ tree.preorder) :
    chunker.chunkOf node ∈ (tree.postorder.map chunker.chunkOf).toArray :=
  List.mem_toArray.mpr (List.mem_map_of_mem (Tree.mem_postorder.mpr member))

theorem Keyed.digest_size {tree : Tree} (keyed : chunker.Keyed tree) :
    (chunker.hasher.digest tree.data).size = chunker.keySize :=
  keyed tree tree.mem_preorder_self

theorem Keyed.branch {tree branch : Tree} (keyed : chunker.Keyed tree)
    (below : branch ∈ tree.branches) : chunker.Keyed branch :=
  fun node member => keyed node (Tree.mem_preorder_of_branch below member)

/-- A tree is keyed if its root and all its branches are. -/
theorem Keyed.of_branches {tree : Tree}
    (root : (chunker.hasher.digest tree.data).size = chunker.keySize)
    (branches : ∀ branch ∈ tree.branches, chunker.Keyed branch) : chunker.Keyed tree := by
  intro node member
  rw [Tree.preorder_eq, List.mem_cons, List.mem_flatMap] at member
  rcases member with rfl | ⟨branch, below, inside⟩
  · exact root
  · exact branches branch below node inside

/-- The keys in the data of a node all have the same length. -/
theorem Keyed.size_of_mem_names {size : Nat} {branches : List Tree}
    (keyed : chunker.Keyed (chunker.nodeOf size branches)) :
    ∀ block ∈ branches.map (fun branch => (chunker.nameOf branch.data).bytes),
      block.size = chunker.keySize := by
  intro block member
  obtain ⟨branch, below, rfl⟩ := List.mem_map.mp member
  exact (keyed.branch below).digest_size

theorem size_nodeOf {size : Nat} {branches : List Tree}
    (keyed : chunker.Keyed (chunker.nodeOf size branches)) :
    (chunker.nodeOf size branches).data.size =
      Header.length + branches.length * chunker.keySize := by
  rw [nodeOf, Array.size_append, Header.size_encode,
    Bytes.size_concat_blocks keyed.size_of_mem_names, List.length_map]

/-- The data of a node holds one key for every piece of its content. -/
theorem size_data_treeAt_of_le {depth : Nat} {content : Bytes}
    (full : chunker.window (depth + 1) ≤ content.size)
    (keyed : chunker.Keyed (chunker.treeAt (depth + 1) content)) :
    (chunker.treeAt (depth + 1) content).data.size =
      Header.length + branchCount (chunker.window (depth + 1)) content.size * chunker.keySize := by
  rw [treeAt_of_le full] at keyed ⊢
  rw [size_nodeOf keyed, List.length_map, Bytes.length_pieces]

/-- The tree over a piece is a branch of the node over the content. -/
theorem treeAt_piece_mem_branches {depth index : Nat} {content : Bytes}
    (full : chunker.window (depth + 1) ≤ content.size)
    (counted : index < branchCount (chunker.window (depth + 1)) content.size) :
    chunker.treeAt depth (content.piece (chunker.window (depth + 1)) index) ∈
      (chunker.treeAt (depth + 1) content).branches := by
  rw [branches_treeAt_of_le full]
  exact List.mem_map_of_mem (Bytes.piece_mem_pieces counted)

end Chunker

end ChunkTree
