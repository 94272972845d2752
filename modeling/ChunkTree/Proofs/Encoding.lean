import ChunkTree.Proofs.Emission
import ChunkTree.Proofs.Transcript

/-!
# One encoding for every content

When everything under a root key has been read, splitting the bytes that came out gives the root key
again and the very data that was accepted, node by node (`Chunker.encodes_of_run_readNode`).  This
supposes nothing of the hasher or of the store: the sizes and lengths that the reader checks leave no
byte of an accepted chunk free.
-/

namespace ChunkTree.Chunker

variable {σ : Type} {chunker : Chunker} {store : Store σ}

variable (chunker) in
/-- The reply that has the data of a node under its key. -/
def replyOf (node : Tree) : Reply := ⟨chunker.nameOf node.data, some node.data⟩

variable (chunker) in
/-- The content has this size, and the tree over it at a place of this depth has this data at its
root, and below it only digests as long as keys are. -/
structure Encodes (depth : Nat) (content data : Bytes) (size : Nat) : Prop where
  size_eq : content.size = size
  data_eq : (chunker.treeAt depth content).data = data
  keyed : ∀ branch ∈ (chunker.treeAt depth content).branches, chunker.Keyed branch

/-- What was read from one branch of a node is what goes with the branch's key: it has the size of
the branch, its tree is keyed, and its root has the key. -/
structure BranchEncodes (chunker : Chunker) (depth window : Nat) (data : Bytes) (size index : Nat)
    (part : Bytes) : Prop where
  size_eq : part.size = min window (size - index * window)
  name_eq : chunker.nameOf (chunker.treeAt depth part).data = chunker.branchKey data index
  keyed : chunker.Keyed (chunker.treeAt depth part)

/-- Parts read from all the branches of a node are the pieces of content that the node encodes. -/
theorem Encodes.of_branches (small : chunker.keySize * chunker.branches < wordLimit) {depth : Nat}
    {key : Key} {data : Bytes} {size : Nat} {parts : List Bytes}
    (full : chunker.window (depth + 1) ≤ size)
    (fits : chunker.Fits key data ⟨depth + 1, chunker.window (depth + 1)⟩ size)
    (read : List.Forall₂ (chunker.BranchEncodes depth (chunker.window (depth + 1)) data size)
      (List.range (branchCount (chunker.window (depth + 1)) size)) parts) :
    chunker.Encodes (depth + 1) (Bytes.concat parts) data size ∧
      (chunker.treeAt (depth + 1) (Bytes.concat parts)).branches =
        parts.map (chunker.treeAt depth) := by
  have wide := window_pos (chunkSize_pos small) (depth + 1)
  have count : parts.length = branchCount (chunker.window (depth + 1)) size := by
    rw [← read.length_eq, List.length_range]
  have each : ∀ index (inside : index < parts.length),
      chunker.BranchEncodes depth (chunker.window (depth + 1)) data size index parts[index] := by
    intro index inside
    have here := read.get (i := index) (by rw [List.length_range, ← count]; exact inside) inside
    simpa using here
  obtain ⟨tiled, total⟩ := Bytes.tiled_of_sizes wide count fun index inside =>
    (each index inside).size_eq
  have tree : chunker.treeAt (depth + 1) (Bytes.concat parts) =
      chunker.nodeOf size (parts.map (chunker.treeAt depth)) := by
    rw [treeAt_of_le (by rw [total]; exact full), Bytes.pieces_concat wide tiled, total]
  -- The keys of the branches are the pieces of all that stands behind the header.
  obtain ⟨body, rfl, length⟩ := fits.node small
  have keys : (parts.map (chunker.treeAt depth)).map
      (fun branch => (chunker.nameOf branch.data).bytes) = body.pieces chunker.keySize := by
    apply List.ext_getElem
    · rw [List.length_map, List.length_map, count, Bytes.length_pieces, length,
        branchCount_mul chunker.keySize_pos]
    · intro index inside _
      rw [List.length_map, List.length_map] at inside
      rw [List.getElem_map, List.getElem_map, (each index inside).name_eq, branchKey_encode_append]
      simp [Bytes.pieces]
  refine ⟨⟨total, ?_, ?_⟩, by rw [tree]; rfl⟩
  · rw [tree, nodeOf, keys, Bytes.concat_pieces chunker.keySize_pos]
  · rw [tree]
    intro branch below
    obtain ⟨part, member, rfl⟩ := List.mem_map.mp below
    obtain ⟨index, inside, rfl⟩ := List.getElem_of_mem member
    exact (each index inside).keyed

/-- Reading a whole node reads every branch from its start to its end. -/
private theorem readBranch_all {depth window size index : Nat} (inside : index * window < size)
    (data : Bytes) :
    chunker.readBranch store depth window data size 0 size index = (do
      let branchSize := min window (size - index * window)
      let shape := Shape.settle chunker.branches branchSize depth (window / chunker.branches)
      let branch ← chunker.fetchBranch store (chunker.branchKey data index) shape branchSize
      chunker.readNode store depth (window / chunker.branches) branch branchSize 0 branchSize) := by
  have start : max 0 (index * window) - index * window = 0 := by omega
  have stop : min size (index * window + min window (size - index * window)) -
      max 0 (index * window) = min window (size - index * window) := by omega
  rw [readBranch]
  simp only [start, stop]

private theorem run_readNode_all {depth window : Nat} {data : Bytes} {size : Nat} {before after : σ}
    {content : Bytes} (positive : 0 < window) (full : window ≤ size)
    (read : (chunker.readNode store (depth + 1) window data size 0 size).run before =
      (.ok content, after)) :
    ∃ parts, ((List.range (branchCount window size)).mapM
      (chunker.readBranch store depth window data size 0 size)).run before = (.ok parts, after) ∧
        content = Bytes.concat parts := by
  have last : (size - 1) / window + 1 = branchCount window size := by
    rw [← branchCount_succ, Nat.sub_add_cancel (Nat.le_trans positive full)]
  rw [readNode_of_le full, Nat.zero_add, Nat.zero_div, Nat.sub_zero, last,
    ← List.range_eq_range'] at read
  by_cases cut : data.size < Header.length + branchCount window size * chunker.keySize
  · rw [if_pos cut] at read
    cases read
  · rw [if_neg cut, Action.run_bind_eq_ok_iff] at read
    obtain ⟨parts, between, ran, same⟩ := read
    cases same
    exact ⟨parts, ran, rfl⟩

/-- A node that was fetched, and then found to encode what was read below it, has the key that it
was fetched for, and the replies to the fetch and the read are the nodes of its tree. -/
theorem Encodes.of_fetch {depth : Nat} {content data : Bytes} {size : Nat} {key : Key}
    {before between : σ × Transcript} {transcript : Transcript}
    (encodes : chunker.Encodes depth content data size)
    (fetched : (chunker.fetch store.transcribed key).run before = (.ok data, between))
    (log : transcript = between.2 ++
      ((chunker.treeAt depth content).branches.flatMap Tree.preorder).map chunker.replyOf) :
    chunker.nameOf (chunker.treeAt depth content).data = key ∧
      chunker.Keyed (chunker.treeAt depth content) ∧
      transcript = before.2 ++ (chunker.treeAt depth content).preorder.map chunker.replyOf := by
  obtain ⟨long, named⟩ := chunker.keyOf_eq_ok_iff.mp (run_fetch_eq_ok_iff.mp fetched).2
  rw [← encodes.data_eq] at long named
  refine ⟨named, .of_branches long encodes.keyed, ?_⟩
  rw [log, transcript_of_run_fetch fetched, Tree.preorder_eq, List.map_cons, replyOf, named,
    encodes.data_eq, List.append_assoc, List.singleton_append]

/-- A node read as a whole at a place that it fits encodes what was read, and the replies to the
read are the nodes below it, each before its branches. -/
theorem encodes_of_run_readNode (small : chunker.keySize * chunker.branches < wordLimit)
    (depth : Nat) {key : Key} {data content : Bytes} {size : Nat} {before after : σ × Transcript}
    (fits : chunker.Fits key data
      (Shape.settle chunker.branches size depth (chunker.window depth)) size)
    (read : (chunker.readNode store.transcribed depth (chunker.window depth) data size 0 size).run
      before = (.ok content, after)) :
    chunker.Encodes depth content data size ∧ after.2 = before.2 ++
      ((chunker.treeAt depth content).branches.flatMap Tree.preorder).map chunker.replyOf := by
  induction depth generalizing key data content size before after with
  | zero =>
      obtain ⟨body, rfl, length⟩ := fits.leaf
      have whole : (Header.encode (UInt64.ofNat size) ++ body).slice (Header.length + 0) size =
          body := by
        rw [← Header.size_encode (UInt64.ofNat size), Bytes.slice_append_right, Bytes.slice,
          Nat.zero_add, ← length, Array.extract_size]
      rw [readNode, whole] at read
      cases read
      refine ⟨⟨length, ?_, fun branch below => by cases below⟩, by simp [treeAt, leafOf]⟩
      rw [treeAt, leafOf, length]
  | succ depth ih =>
      by_cases short : size < chunker.window (depth + 1)
      · rw [readNode_of_lt short, window_succ_div] at read
        rw [Shape.settle_of_lt short, window_succ_div] at fits
        obtain ⟨⟨length, same, keyed⟩, log⟩ := ih fits read
        have tree : chunker.treeAt (depth + 1) content = chunker.treeAt depth content :=
          treeAt_of_lt (length ▸ short)
        exact ⟨⟨length, tree ▸ same, tree ▸ keyed⟩, tree ▸ log⟩
      · have full := Nat.le_of_not_lt short
        have wide := window_pos (chunkSize_pos small) (depth + 1)
        rw [Shape.settle_of_le full] at fits
        obtain ⟨parts, ran, rfl⟩ := run_readNode_all wide full read
        have each : ∀ index ∈ List.range (branchCount (chunker.window (depth + 1)) size),
            ∀ {before after : σ × Transcript} {part : Bytes},
            (chunker.readBranch store.transcribed depth (chunker.window (depth + 1)) data size 0
              size index).run before = (.ok part, after) →
            chunker.BranchEncodes depth (chunker.window (depth + 1)) data size index part ∧
              after.2 = before.2 ++ (chunker.treeAt depth part).preorder.map chunker.replyOf := by
          intro index counted before after part ran
          have inside := (lt_branchCount_iff wide index size).mp (List.mem_range.mp counted)
          rw [readBranch_all inside, window_succ_div, Action.run_bind_eq_ok_iff] at ran
          obtain ⟨branch, between, accepted, ran⟩ := ran
          obtain ⟨fetched, branchFits⟩ := run_fetchBranch_eq_ok_iff.mp accepted
          obtain ⟨encodes, log⟩ := ih branchFits ran
          obtain ⟨named, keyed, log⟩ := encodes.of_fetch fetched log
          exact ⟨⟨encodes.size_eq, named, keyed⟩, log⟩
        obtain ⟨read, log⟩ := Action.forall₂_of_run_mapM each ran
        obtain ⟨encodes, branches⟩ := Encodes.of_branches small full fits read
        refine ⟨encodes, ?_⟩
        rw [log, branches, List.map_flatMap, List.flatMap_map]

/-- **One encoding for every content.** When a tree has been opened and read to its end, whatever
the store did and in whatever state the read found it, then splitting the bytes that were read makes
a tree with the same root key, and the replies that were accepted on the way, one for every node
before its branches, are the data of that tree's chunks. -/
theorem split_of_read (small : chunker.keySize * chunker.branches < wordLimit) {root : Key}
    {before opened later after : σ} {part : Section σ} {content : Bytes}
    (joined : (chunker.join store root).run before = (.ok part, opened))
    (read : part.readAll.run later = (.ok content, after)) :
    ∃ tree chunks, chunker.treeOf content = .ok tree ∧
      chunker.chunksOf content = .ok (root, chunks) ∧
      chunks = (tree.postorder.map chunker.chunkOf).toArray ∧
      ∃ traced opening,
        (chunker.join store.transcribed root).run (before, []) = (.ok traced, opened, opening) ∧
          traced.readAll.run (later, opening) =
            (.ok content, after, tree.preorder.map chunker.replyOf) := by
  obtain ⟨node, opening, openedRoot, related⟩ := exists_transcribed_join joined
  obtain ⟨more, transcribed⟩ := (related.readAll Action.Records.compatible).run read opening
  have joined : (chunker.join store.transcribed root).run (before, []) =
      (.ok (chunker.sectionOf store.transcribed node), opened, opening) :=
    run_join_eq_ok_iff.mpr ⟨node, openedRoot, rfl⟩
  obtain ⟨fetched, covered, fits⟩ := run_openRoot_eq_ok_iff.mp openedRoot
  have nodeRead := transcribed
  rw [readAll_sectionOf covered, (window_of_shapeOf covered).1] at nodeRead
  rw [Shape.normalize, (window_of_shapeOf covered).1] at fits
  obtain ⟨encodes, log⟩ := encodes_of_run_readNode small _ fits nodeRead
  obtain ⟨named, keyed, log⟩ := encodes.of_fetch fetched log
  have transcript : opening ++ more =
    (chunker.treeAt node.shape.depth content).preorder.map chunker.replyOf := log
  have tree : chunker.treeOf content = .ok (chunker.treeAt node.shape.depth content) :=
    treeOf_eq_ok_iff.mpr ⟨node.shape, encodes.size_eq ▸ covered, rfl⟩
  refine ⟨_, _, tree, ?_, rfl, _, opening, joined, by rw [transcribed, transcript]⟩
  exact (chunksOf_eq_ok_iff (chunkSize_pos small)).mpr ⟨_, tree, keyed, named, rfl⟩

/-- A store that knows nothing of keys gives the chunks of a tree in the order in which they are
asked for. -/
theorem split_of_read_of_script :
    ∃ part, (tiny.join Store.scripted tinyRoot.key).run (tinyRoot :: tinyLeaves) =
        (.ok part, tinyLeaves) ∧
      part.readAll.run tinyLeaves = (.ok #[1, 2, 3, 4, 5], []) ∧
      ∃ tree chunks, tiny.treeOf #[1, 2, 3, 4, 5] = .ok tree ∧
        tiny.chunksOf #[1, 2, 3, 4, 5] = .ok (tinyRoot.key, chunks) ∧
        chunks = (tree.postorder.map tiny.chunkOf).toArray := by
  have opened : (tiny.openRoot Store.scripted tinyRoot.key).run (tinyRoot :: tinyLeaves) =
      (.ok ⟨#[5, 0, 0, 0, 0, 0, 0, 0, 14, 6], 5, ⟨2, 8⟩⟩, tinyLeaves) := by
    decide +kernel
  have joined := run_join_eq_ok_iff.mpr ⟨_, opened, rfl⟩
  have read : (tiny.sectionOf Store.scripted
      ⟨#[5, 0, 0, 0, 0, 0, 0, 0, 14, 6], 5, ⟨2, 8⟩⟩).readAll.run tinyLeaves =
        (.ok #[1, 2, 3, 4, 5], []) := by
    decide +kernel
  obtain ⟨tree, chunks, covered, split, same, -⟩ := split_of_read (by decide) joined read
  exact ⟨_, joined, read, tree, chunks, covered, split, same⟩

end ChunkTree.Chunker
