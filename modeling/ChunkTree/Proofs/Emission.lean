import ChunkTree.Proofs.Sections
import ChunkTree.Proofs.Tree
import ChunkTree.Split

/-!
# The chunks of a split

Splitting a section that has some content hands over the chunks of the tree over that content, each
after its branches, and answers with the key of the root (`Chunker.split_eq`).  So the chunks of
content in memory are those of its tree exactly if their digests are as long as keys are
(`Chunker.chunksOf_eq_ok_iff`).
-/

namespace ChunkTree

variable {σ : Type}

namespace Chunker

variable (chunker : Chunker)

/-- Hands over the chunk of a node, unless its digest is not as long as keys are. -/
def deliver (collect : Collector σ) (tree : Tree) : Action σ Unit := do
  let key ← .lift (chunker.keyOf tree.data)
  collect ⟨key, some tree.data, UInt64.ofNat tree.size⟩

variable {chunker} {collect : Collector σ}

/-- Making the chunk of a node hands it over and answers with its key. -/
theorem emit_eq {size : Nat} {body : Bytes} {tree : Tree} (sizes : tree.size = size)
    (encoded : tree.data = Header.encode (UInt64.ofNat size) ++ body) :
    chunker.emit collect size body =
      (do chunker.deliver collect tree; return chunker.nameOf tree.data) := by
  subst sizes
  simp only [emit, deliver, ← encoded]
  cases named : chunker.keyOf tree.data with
  | error fault => rfl
  | ok key =>
      obtain ⟨_, rfl⟩ := chunker.keyOf_eq_ok_iff.mp named
      rfl

/-- Splitting a section hands over the chunks of the tree over its content. -/
theorem splitAt_eq (positive : 0 < chunker.chunkSize) (depth : Nat) {part : Section σ}
    {content : Bytes} (holds : part.Holds content) :
    chunker.splitAt collect depth (chunker.window depth) part =
      (do forM (chunker.treeAt depth content).postorder (chunker.deliver collect)
          return chunker.nameOf (chunker.treeAt depth content).data) := by
  induction depth generalizing part content with
  | zero =>
      have leaf : chunker.emit collect content.size content =
          (do chunker.deliver collect (leafOf content)
              return chunker.nameOf (leafOf content).data) := emit_eq rfl rfl
      have alone : (leafOf content).postorder = [leafOf content] := by
        rw [Tree.postorder_eq]
        rfl
      rw [splitAt, holds.readAll, pure_bind, holds.size_eq, leaf, treeAt, alone, List.forM_cons,
        List.forM_nil, bind_assoc]
      rfl
  | succ depth ih =>
      rw [splitAt, window_succ_div, holds.size_eq]
      by_cases short : content.size < chunker.window (depth + 1)
      · rw [if_pos short, treeAt_of_lt short, ih holds]
      · let branches := (content.pieces (chunker.window (depth + 1))).map (chunker.treeAt depth)
        have split : (List.range (branchCount (chunker.window (depth + 1)) content.size)).mapM
              (fun index => chunker.splitAt collect depth (chunker.window depth)
                (part.branch (chunker.window (depth + 1)) index)) =
            branches.mapM (fun branch => do
              forM branch.postorder (chunker.deliver collect)
              return chunker.nameOf branch.data) := by
          rw [List.mapM_map, Bytes.pieces, List.mapM_map]
          refine mapM_congr fun index counted => ih (holds.branch ?_)
          exact (lt_branchCount_iff (window_pos positive _) _ _).mp (List.mem_range.mp counted)
        have node : chunker.emit collect content.size
              (Bytes.concat (branches.map fun branch => (chunker.nameOf branch.data).bytes)) =
            (do chunker.deliver collect (chunker.nodeOf content.size branches)
                return chunker.nameOf (chunker.nodeOf content.size branches).data) :=
          emit_eq rfl rfl
        have order : (chunker.nodeOf content.size branches).postorder =
            branches.flatMap Tree.postorder ++ [chunker.nodeOf content.size branches] :=
          Tree.postorder_eq _
        rw [if_neg short, treeAt_of_le (Nat.le_of_not_lt short), split, mapM_forM_eq, order,
          List.forM_append, List.forM_cons, List.forM_nil]
        simp only [bind_assoc, pure_bind, List.map_map]
        exact congrArg _ (funext fun _ => node)

theorem split_eq (positive : 0 < chunker.chunkSize) {part : Section σ} {content : Bytes}
    (holds : part.Holds content) {tree : Tree} (covered : chunker.treeOf content = .ok tree) :
    chunker.split part (some collect) =
      (do forM tree.postorder (chunker.deliver collect); return chunker.nameOf tree.data) := by
  obtain ⟨shape, fits, rfl⟩ := treeOf_eq_ok_iff.mp covered
  have window := (window_of_shapeOf fits).1
  have splits : chunker.splitAt collect shape.depth (chunker.window shape.depth) part = _ :=
    splitAt_eq positive shape.depth holds
  rw [← window] at splits
  rw [← splits, split, holds.size_eq, fits]
  rfl

theorem split_of_error {part : Section σ} {content : Bytes} (holds : part.Holds content)
    {fault : Fault} (uncovered : chunker.treeOf content = .error fault) :
    chunker.split part (some collect) = throw fault := by
  unfold treeOf at uncovered
  rw [split, holds.size_eq]
  cases fits : chunker.shapeOf content.size with
  | ok shape =>
      rw [fits] at uncovered
      cases uncovered
  | error other =>
      rw [fits] at uncovered
      cases uncovered
      rfl

theorem run_deliver (collect : Collector σ) (tree : Tree) (state : σ) :
    (chunker.deliver collect tree).run state =
      if (chunker.hasher.digest tree.data).size = chunker.keySize then
        (collect (chunker.chunkOf tree)).run state
      else (.error .digestLength, state) := by
  rw [deliver, Action.run_bind, Action.run_lift, keyOf]
  by_cases long : (chunker.hasher.digest tree.data).size = chunker.keySize
  · simp only [long, ↓reduceIte]
    rfl
  · simp only [long, ↓reduceIte]

private theorem run_forM_record {trees : List Tree} {before after : Array Chunk} :
    (forM trees (chunker.deliver fun chunk => Action.update (·.push chunk))).run before =
        (.ok (), after) ↔
      (∀ tree ∈ trees, (chunker.hasher.digest tree.data).size = chunker.keySize) ∧
        after = before ++ (trees.map chunker.chunkOf).toArray := by
  induction trees generalizing before with
  | nil => simp [eq_comm]
  | cons tree rest ih =>
      rw [List.forM_cons, Action.run_bind, run_deliver]
      by_cases long : (chunker.hasher.digest tree.data).size = chunker.keySize
      · have pushed : before.push (chunker.chunkOf tree) ++ (rest.map chunker.chunkOf).toArray =
            before ++ ((tree :: rest).map chunker.chunkOf).toArray := by
          simp
        rw [if_pos long, Action.run_update, List.forall_mem_cons, and_iff_right long, ← pushed]
        exact ih
      · simp only [long, ↓reduceIte, List.forall_mem_cons, false_and, iff_false]
        intro same
        cases same

/-- **The chunks of content.** They are those of its tree, each after its branches, and all their
digests are as long as keys are. -/
theorem chunksOf_eq_ok_iff (positive : 0 < chunker.chunkSize) {content : Bytes} {root : Key}
    {chunks : Array Chunk} :
    chunker.chunksOf content = .ok (root, chunks) ↔
      ∃ tree, chunker.treeOf content = .ok tree ∧ chunker.Keyed tree ∧
        chunker.nameOf tree.data = root ∧
        chunks = (tree.postorder.map chunker.chunkOf).toArray := by
  simp only [chunksOf]
  cases covered : chunker.treeOf content with
  | error fault =>
      rw [split_of_error (Section.holds_ofBytes content) covered, Action.run_throw]
      simp
  | ok tree =>
      have keyed : chunker.Keyed tree ↔
          ∀ node ∈ tree.postorder, (chunker.hasher.digest node.data).size = chunker.keySize := by
        simp only [Keyed, Tree.mem_postorder]
      rw [split_eq positive (Section.holds_ofBytes content) covered, Action.run_bind]
      rcases ran : (forM tree.postorder (chunker.deliver fun chunk =>
        Action.update (·.push chunk)) : Action (Array Chunk) Unit).run #[] with ⟨fault | _, after⟩
      · constructor
        · intro same
          cases same
        · rintro ⟨_, same, complete, -, -⟩
          cases same
          cases ran.symm.trans (run_forM_record.mpr ⟨keyed.mp complete, rfl⟩)
      · obtain ⟨complete, rfl⟩ := run_forM_record.mp ran
        rw [Array.empty_append]
        constructor
        · intro same
          cases same
          exact ⟨tree, rfl, keyed.mpr complete, rfl, rfl⟩
        · rintro ⟨_, same, -, rfl, rfl⟩
          cases same
          rfl

/-- With a hasher that keeps to its digest length, all content that a tree covers is split. -/
theorem chunksOf_of_shapeOf (positive : 0 < chunker.chunkSize) (honest : chunker.hasher.Honest)
    {content : Bytes} {shape : Shape} (covered : chunker.shapeOf content.size = .ok shape) :
    chunker.chunksOf content = .ok (chunker.nameOf (chunker.treeAt shape.depth content).data,
      ((chunker.treeAt shape.depth content).postorder.map chunker.chunkOf).toArray) := by
  have tree := treeOf_eq_ok_iff.mpr ⟨shape, covered, rfl⟩
  exact (chunksOf_eq_ok_iff positive).mpr ⟨_, tree, fun node _ => honest node.data, rfl, rfl⟩

/-- A chunker whose keys have one byte, so that trees are deep and collisions easy to come by. -/
def tiny : Chunker := ⟨2, .sum8, by decide, by decide⟩

/-- The leaves of a tree over the bytes from one to five. -/
def tinyLeaves : List Chunk :=
  [⟨⟨#[14]⟩, some #[4, 0, 0, 0, 0, 0, 0, 0, 1, 2, 3, 4], 4⟩,
    ⟨⟨#[6]⟩, some #[1, 0, 0, 0, 0, 0, 0, 0, 5], 1⟩]

/-- The root above these leaves. -/
def tinyRoot : Chunk := ⟨⟨#[25]⟩, some #[5, 0, 0, 0, 0, 0, 0, 0, 14, 6], 5⟩

example : tiny.chunksOf #[1, 2, 3, 4, 5] =
    .ok (tinyRoot.key, (tinyLeaves ++ [tinyRoot]).toArray) := by
  decide +kernel

end Chunker

end ChunkTree
