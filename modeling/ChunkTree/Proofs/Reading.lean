import ChunkTree.Proofs.Descent
import ChunkTree.Proofs.Emission

/-!
# What a read asks for

Reading a range of a tree over some content comes to the nodes whose windows meet the range, from
left to right, each before its branches (`Chunker.visits`).  As long as a store has no false data
with the digest of a node (`Chunker.TrueUntil`), the read is nothing but a demand for each of these
nodes, and answers with the range of the content (`Chunker.alike_openRoot`, `Chunker.alike_readAt`).
-/

namespace ChunkTree.Chunker

variable {σ : Type}

variable (chunker : Chunker) (store : Store σ)

/-- The nodes below the root of a tree over some content that a read of a range comes to. -/
def visits : (depth : Nat) → (content : Bytes) → (position count : Nat) → List Tree
  | 0, _, _, _ => []
  | depth + 1, content, position, count =>
    if content.size < chunker.window (depth + 1) then visits depth content position count
    else
      let window := chunker.window (depth + 1)
      let stop := position + count
      let first := position / window
      let last := (stop - 1) / window
      (List.range' first (last + 1 - first)).flatMap fun index =>
        let start := index * window
        let piece := content.piece window index
        let low := max position start
        let high := min stop (start + piece.size)
        chunker.treeAt depth piece :: visits depth piece (low - start) (high - low)

/-- The nodes that a read of a range asks for: none if the range has nothing in it. -/
def asks (depth : Nat) (content : Bytes) (position count : Nat) : List Tree :=
  if count = 0 then [] else chunker.visits depth content position count

/-- The length of data has to fit in a word, where lengths are counted. -/
def countable (key : Key) (data : Bytes) : Except Fault Unit :=
  if data.size < wordLimit then .ok ()
  else .error (.lengthMismatch key data.size (data.size % wordLimit))

/-- Asks for a node: its chunk has to be there, and true. -/
def demand (node : Tree) : Action σ Unit := do
  let _ ← chunker.fetch store (chunker.nameOf node.data)
  .lift (countable (chunker.nameOf node.data) node.data)

/-- Until the state is bad, what the store has under the key of a node is the data of the node, or
else something that the digest tells from it; and what is bad stays so. -/
structure TrueUntil (bad : σ → Prop) (tree : Tree) : Prop where
  stays : ∀ key, Action.Keeps bad (store.get key)
  honest : ∀ node ∈ tree.preorder, ∀ {before after : σ} {chunk : Chunk} {data : Bytes},
    (store.get (chunker.nameOf node.data)).run before = (.ok (some chunk), after) →
    chunk.data = some data → chunker.hasher.digest data = chunker.hasher.digest node.data →
    data = node.data ∨ bad after

variable {chunker} {store}

theorem TrueUntil.branch {bad : σ → Prop} {tree branch : Tree}
    (truthful : chunker.TrueUntil store bad tree) (below : branch ∈ tree.branches) :
    chunker.TrueUntil store bad branch where
  stays := truthful.stays
  honest node member := truthful.honest node (Tree.mem_preorder_of_branch below member)

/-- The key at an index in the data of a node is that of the tree over the piece there. -/
theorem branchKey_treeAt {depth index : Nat} {content : Bytes}
    (full : chunker.window (depth + 1) ≤ content.size)
    (keyed : chunker.Keyed (chunker.treeAt (depth + 1) content))
    (counted : index < branchCount (chunker.window (depth + 1)) content.size) :
    chunker.branchKey (chunker.treeAt (depth + 1) content).data index =
      chunker.nameOf
        (chunker.treeAt depth (content.piece (chunker.window (depth + 1)) index)).data := by
  rw [treeAt_of_le full] at keyed ⊢
  rw [nodeOf, branchKey_encode_append, Bytes.piece_concat_blocks chunker.keySize_pos
    keyed.size_of_mem_names (by simpa using counted)]
  simp only [Bytes.pieces, List.getElem_map, List.getElem_range]

/-- What a read comes to belongs to the tree. -/
theorem mem_preorder_of_mem_visits (positive : 0 < chunker.chunkSize) (depth : Nat)
    {content : Bytes} {position count : Nat} (nonempty : 0 < count)
    (inside : position + count ≤ content.size) {node : Tree}
    (visited : node ∈ chunker.visits depth content position count) :
    node ∈ (chunker.treeAt depth content).preorder := by
  induction depth generalizing content position count with
  | zero => exact absurd visited List.not_mem_nil
  | succ depth ih =>
      rw [visits] at visited
      by_cases short : content.size < chunker.window (depth + 1)
      · rw [if_pos short] at visited
        rw [treeAt_of_lt short]
        exact ih nonempty inside visited
      · rw [if_neg short] at visited
        obtain ⟨index, meets, visited⟩ := List.mem_flatMap.mp visited
        have wide := window_pos positive (depth + 1)
        obtain ⟨started, some, within⟩ :=
          Bytes.clip_inside wide (Nat.lt_add_of_pos_right nonempty) inside meets
        rw [← Bytes.size_piece] at some within
        have counted := (lt_branchCount_iff wide index content.size).mpr started
        refine Tree.mem_preorder_of_branch
          (treeAt_piece_mem_branches (Nat.le_of_not_lt short) counted) ?_
        rcases List.mem_cons.mp visited with rfl | visited
        · exact Tree.mem_preorder_self _
        · exact ih some within visited

theorem checkLength_of_dataLength {key : Key} {data : Bytes} {shape : Shape} {size : Nat}
    (expected : chunker.dataLength key shape size = .ok (data.size % wordLimit)) :
    chunker.checkLength key data shape size = countable key data := by
  rw [checkLength, expected, countable]
  by_cases short : data.size < wordLimit
  · rw [if_pos short, Nat.mod_eq_of_lt short]
    exact if_pos rfl
  · have wraps : data.size ≠ data.size % wordLimit := by
      have bound := Nat.mod_lt data.size (by decide : 0 < wordLimit)
      omega
    rw [if_neg short]
    exact if_neg wraps

/-- The data of a node has the length of its place, as far as lengths are counted. -/
theorem checkLength_treeAt (positive : 0 < chunker.chunkSize) (key : Key) (depth : Nat)
    {content : Bytes} (reach : content.size ≤ chunker.window (depth + 1))
    (keyed : chunker.Keyed (chunker.treeAt depth content)) :
    chunker.checkLength key (chunker.treeAt depth content).data
        (Shape.settle chunker.branches content.size depth (chunker.window depth)) content.size =
      countable key (chunker.treeAt depth content).data := by
  induction depth with
  | zero =>
      apply checkLength_of_dataLength
      rw [Shape.settle, dataLength, if_pos rfl, treeAt, leafOf, Array.size_append,
        Header.size_encode]
  | succ depth ih =>
      by_cases short : content.size < chunker.window (depth + 1)
      · rw [treeAt_of_lt short] at keyed ⊢
        rw [Shape.settle_of_lt short, window_succ_div]
        exact ih short.le keyed
      · have full := Nat.le_of_not_lt short
        have wide := window_pos positive (depth + 1)
        rw [Shape.settle_of_le full]
        have some : branchCount (chunker.window (depth + 1)) content.size ≠ 0 :=
          ((lt_branchCount_iff wide 0 content.size).mpr (by omega)).ne'
        have few : ¬ chunker.branches < branchCount (chunker.window (depth + 1)) content.size :=
          Nat.not_lt_of_le (branchCount_le_branches positive reach)
        apply checkLength_of_dataLength
        simp only [dataLength, Nat.succ_ne_zero, some, few, or_self, ↓reduceIte]
        rw [size_data_treeAt_of_le full keyed]

/-- The data of a node is accepted at its place, as far as lengths are counted. -/
theorem accept_treeAt (positive : 0 < chunker.chunkSize) (key : Key) (depth : Nat)
    {content : Bytes} (reach : content.size ≤ chunker.window (depth + 1))
    (word : content.size < wordLimit) (keyed : chunker.Keyed (chunker.treeAt depth content)) :
    chunker.accept key (chunker.treeAt depth content).data
        (Shape.settle chunker.branches content.size depth (chunker.window depth)) content.size =
      countable key (chunker.treeAt depth content).data := by
  rw [accept, decode_treeAt]
  simp only [bind, Except.bind, UInt64.toNat_ofNat_of_lt' word, ↓reduceIte]
  exact checkLength_treeAt positive key depth reach keyed

/-- The data of the root makes the root, as far as lengths are counted. -/
theorem rootOf_treeAt (positive : 0 < chunker.chunkSize) (key : Key) {content : Bytes}
    {shape : Shape} (covered : chunker.shapeOf content.size = .ok shape)
    (keyed : chunker.Keyed (chunker.treeAt shape.depth content)) :
    chunker.rootOf key (chunker.treeAt shape.depth content).data =
      (do countable key (chunker.treeAt shape.depth content).data
          return ⟨(chunker.treeAt shape.depth content).data, content.size, shape⟩) := by
  obtain ⟨window, reach, word⟩ := window_of_shapeOf covered
  have length := checkLength_treeAt positive key shape.depth (le_window_succ_of_shapeOf covered)
    keyed
  rw [← window] at length
  rw [rootOf, decode_treeAt]
  simp only [bind, Except.bind, UInt64.toNat_ofNat_of_lt' (Nat.lt_of_le_of_lt reach word), covered,
    Shape.normalize, length]

/-- No data in a tree is longer than a header and the longest leaf. -/
theorem size_data_le_longestLeaf (small : chunker.keySize * chunker.branches < wordLimit)
    (depth : Nat) {content : Bytes} (reach : content.size ≤ chunker.window (depth + 1))
    (keyed : chunker.Keyed (chunker.treeAt depth content)) {node : Tree}
    (member : node ∈ (chunker.treeAt depth content).preorder) :
    node.data.size ≤ Header.length + chunker.longestLeaf content.size := by
  have first : chunker.window 1 = chunker.chunkSize * chunker.branches := by
    rw [window, Nat.pow_one]
  induction depth generalizing content with
  | zero =>
      rw [treeAt, Tree.preorder_eq] at member
      rw [List.mem_singleton.mp member, leafOf, Array.size_append, Header.size_encode, longestLeaf,
        ← first, Nat.min_eq_left reach]
  | succ depth ih =>
      by_cases short : content.size < chunker.window (depth + 1)
      · rw [treeAt_of_lt short] at keyed member
        exact ih short.le keyed member
      · have full := Nat.le_of_not_lt short
        rw [Tree.preorder_eq, List.mem_cons] at member
        rcases member with rfl | member
        · have few := branchCount_le_branches (chunkSize_pos small) reach
          have least : chunker.window 0 ≤ chunker.window (depth + 1) :=
            window_mono (Nat.zero_le _)
          have second : chunker.window 0 ≤ chunker.window 1 := window_mono (Nat.zero_le _)
          rw [size_data_treeAt_of_le full keyed, longestLeaf, ← first]
          refine Nat.add_le_add_left (Nat.le_trans (Nat.mul_le_mul_right _ few) ?_) _
          rw [window_zero, chunkSize_eq small, Nat.mul_comm] at least second
          exact Nat.le_min.mpr ⟨Nat.le_trans least full, second⟩
        · obtain ⟨branch, below, inside⟩ := List.mem_flatMap.mp member
          have branchKeyed := keyed.branch below
          rw [treeAt_of_le full] at below
          obtain ⟨piece, cut, rfl⟩ := List.mem_map.mp below
          have length := Bytes.size_le_of_mem_pieces cut
          have data := ih length.1 branchKeyed inside
          refine Nat.le_trans data (Nat.add_le_add_left ?_ _)
          exact Nat.le_min.mpr ⟨Nat.le_trans (Nat.min_le_left _ _) length.2, Nat.min_le_right _ _⟩

/-- No data in a tree is longer than a header and all of the content. -/
theorem size_data_le (small : chunker.keySize * chunker.branches < wordLimit) (depth : Nat)
    {content : Bytes} (reach : content.size ≤ chunker.window (depth + 1))
    (keyed : chunker.Keyed (chunker.treeAt depth content)) {node : Tree}
    (member : node ∈ (chunker.treeAt depth content).preorder) :
    node.data.size ≤ Header.length + content.size :=
  Nat.le_trans (size_data_le_longestLeaf small depth reach keyed member)
    (Nat.add_le_add_left (Nat.min_le_left _ _) _)

section Alike

variable {bad : σ → Prop} {tree : Tree}

/-- Whatever is done with what is fetched for a node is done with the data of the node. -/
theorem alike_fetch_bind {α : Type} (truthful : chunker.TrueUntil store bad tree) {node : Tree}
    (member : node ∈ tree.preorder) {next : Bytes → Action σ α}
    (stays : ∀ data, Action.Keeps bad (next data)) :
    Action.AlikeUntil bad (chunker.fetch store (chunker.nameOf node.data) >>= next)
      (do let _ ← chunker.fetch store (chunker.nameOf node.data); next node.data) := by
  intro state
  rw [Action.run_bind, Action.run_bind]
  rcases ran : (chunker.fetch store (chunker.nameOf node.data)).run state with ⟨fault | data, after⟩
  · exact .inr rfl
  · obtain ⟨⟨chunk, got, held⟩, named⟩ := run_fetch_eq_ok_iff.mp ran
    have digests := congrArg Key.bytes (chunker.keyOf_eq_ok_iff.mp named).2
    rcases truthful.honest node member got held digests with same | spoiled
    · exact .inr (by rw [same])
    · exact .inl (stays data after spoiled)

/-- Fetching a branch that is a node of the tree is a demand for it. -/
theorem alike_fetchBranch (positive : 0 < chunker.chunkSize) {depth : Nat} {content : Bytes}
    (truthful : chunker.TrueUntil store bad (chunker.treeAt depth content))
    (keyed : chunker.Keyed (chunker.treeAt depth content))
    (reach : content.size ≤ chunker.window (depth + 1)) (word : content.size < wordLimit) :
    Action.AlikeUntil bad
      (chunker.fetchBranch store (chunker.nameOf (chunker.treeAt depth content).data)
        (Shape.settle chunker.branches content.size depth (chunker.window depth)) content.size)
      (do chunker.demand store (chunker.treeAt depth content)
          return (chunker.treeAt depth content).data) := by
  unfold fetchBranch demand
  rw [bind_assoc, ← accept_treeAt positive _ depth reach word keyed]
  exact alike_fetch_bind truthful (Tree.mem_preorder_self _) fun data =>
    (Action.Keeps.lift bad _).bind fun _ => Action.Keeps.pure bad data

/-- Opening the tree is a demand for its root. -/
theorem alike_openRoot (positive : 0 < chunker.chunkSize) {content : Bytes} {shape : Shape}
    (covered : chunker.shapeOf content.size = .ok shape)
    (truthful : chunker.TrueUntil store bad (chunker.treeAt shape.depth content))
    (keyed : chunker.Keyed (chunker.treeAt shape.depth content)) :
    Action.AlikeUntil bad
      (chunker.openRoot store (chunker.nameOf (chunker.treeAt shape.depth content).data))
      (do chunker.demand store (chunker.treeAt shape.depth content)
          return ⟨(chunker.treeAt shape.depth content).data, content.size, shape⟩) := by
  have root := congrArg (Action.lift : _ → Action σ Root) (rootOf_treeAt positive
    (chunker.nameOf (chunker.treeAt shape.depth content).data) covered keyed)
  rw [Action.lift_bind] at root
  unfold openRoot demand
  rw [bind_assoc]
  refine (alike_fetch_bind truthful (Tree.mem_preorder_self _) fun data =>
    Action.Keeps.lift bad _).trans ?_
  rw [root]
  exact Action.AlikeUntil.refl bad _

/-- What a read has of one branch of a node is a demand for the branch and for the nodes below it
that the read comes to. -/
theorem alike_readBranch (positive : 0 < chunker.chunkSize) {depth : Nat} {content : Bytes}
    {window position stop index : Nat} {piece : Bytes} {below : List Tree} {answer : Bytes}
    (width : chunker.window (depth + 1) = window) (cut : content.piece window index = piece)
    (truthful : chunker.TrueUntil store bad (chunker.treeAt (depth + 1) content))
    (keyed : chunker.Keyed (chunker.treeAt (depth + 1) content))
    (full : window ≤ content.size) (word : content.size < wordLimit)
    (counted : index < branchCount window content.size)
    (read : Action.AlikeUntil bad
      (chunker.readNode store depth (chunker.window depth) (chunker.treeAt depth piece).data
        piece.size (max position (index * window) - index * window)
        (min stop (index * window + piece.size) - max position (index * window)))
      (do forM below (chunker.demand store); return answer)) :
    Action.AlikeUntil bad
      (chunker.readBranch store depth window (chunker.treeAt (depth + 1) content).data content.size
        position stop index)
      (do forM (chunker.treeAt depth piece :: below) (chunker.demand store)
          return answer) := by
  subst width
  subst cut
  have member := treeAt_piece_mem_branches full counted
  have length := Bytes.size_piece (chunker.window (depth + 1)) content index
  unfold readBranch
  rw [window_succ_div, branchKey_treeAt full keyed counted, List.forM_cons, bind_assoc, ← length]
  refine (alike_fetchBranch positive (truthful.branch member) (keyed.branch member) ?_
    ?_).bind_known read fun data => keeps_readNode truthful.stays _ _ _ _ _ _
  · omega
  · omega

/-- **A read is what it asks for.** Reading a range of a node is a demand for the nodes below that
it comes to, and the answer is the range. -/
theorem alike_readNode (positive : 0 < chunker.chunkSize) (depth : Nat) {content : Bytes}
    {position count : Nat}
    (truthful : chunker.TrueUntil store bad (chunker.treeAt depth content))
    (keyed : chunker.Keyed (chunker.treeAt depth content))
    (reach : content.size ≤ chunker.window (depth + 1)) (word : content.size < wordLimit)
    (nonempty : 0 < count) (inside : position + count ≤ content.size) :
    Action.AlikeUntil bad
      (chunker.readNode store depth (chunker.window depth) (chunker.treeAt depth content).data
        content.size position count)
      (do forM (chunker.visits depth content position count) (chunker.demand store)
          return content.slice position count) := by
  induction depth generalizing content position count with
  | zero =>
      have leaf : (leafOf content).data.slice (Header.length + position) count =
          content.slice position count := by
        rw [leafOf, ← Header.size_encode (UInt64.ofNat content.size), Bytes.slice_append_right]
      rw [readNode, treeAt, leaf]
      exact Action.AlikeUntil.refl bad _
  | succ depth ih =>
      by_cases short : content.size < chunker.window (depth + 1)
      · rw [treeAt_of_lt short] at truthful keyed ⊢
        rw [readNode_of_lt short, window_succ_div, visits, if_pos short]
        exact ih truthful keyed short.le word nonempty inside
      · have full := Nat.le_of_not_lt short
        have wide := window_pos positive (depth + 1)
        have last : (position + count - 1) / chunker.window (depth + 1) <
            branchCount (chunker.window (depth + 1)) content.size := by
          rw [lt_branchCount_iff wide]
          exact Nat.lt_of_le_of_lt (Nat.div_mul_le_self _ _) (by omega)
        have uncut : ¬ (chunker.treeAt (depth + 1) content).data.size < Header.length +
            ((position + count - 1) / chunker.window (depth + 1) + 1) * chunker.keySize := by
          rw [size_data_treeAt_of_le full keyed, Nat.not_lt]
          exact Nat.add_le_add_left (Nat.mul_le_mul_right _ last) _
        rw [readNode_of_le full, if_neg uncut, visits, if_neg short]
        have order : position < position + count := Nat.lt_add_of_pos_right nonempty
        have clips := Bytes.concat_clips wide content order inside
        rw [Nat.add_sub_cancel_left] at clips
        rw [← clips]
        simp only [← Bytes.size_piece]
        -- Each branch adds what it asks for, and its answer is a clip of the range.
        refine (Action.AlikeUntil.mapM_forM ?_ fun index _ =>
          keeps_readBranch truthful.stays _ _ _ _ _ _ _).bind_known (Action.AlikeUntil.refl bad _)
            fun parts => Action.Keeps.pure bad _
        intro index meets
        obtain ⟨started, some, within⟩ := Bytes.clip_inside wide order inside meets
        rw [← Bytes.size_piece] at some within
        have counted := (lt_branchCount_iff wide index content.size).mpr started
        have member := treeAt_piece_mem_branches full counted
        have length := Bytes.size_piece (chunker.window (depth + 1)) content index
        refine alike_readBranch positive rfl rfl truthful keyed full word counted ?_
        apply ih (truthful.branch member) (keyed.branch member) _ _ some within
        · omega
        · omega

/-- **A read of a slice.** Reading a range of a slice of the open tree is a demand for the nodes
that the range in the whole content asks for, and the answer is that range. -/
theorem alike_readAt (positive : 0 < chunker.chunkSize) {content : Bytes} {shape : Shape}
    (covered : chunker.shapeOf content.size = .ok shape)
    (truthful : chunker.TrueUntil store bad (chunker.treeAt shape.depth content))
    (keyed : chunker.Keyed (chunker.treeAt shape.depth content)) {ranges : List (Nat × Nat)}
    {view : Section σ} {position count : Nat}
    (sliced : (chunker.sectionOf store
      ⟨(chunker.treeAt shape.depth content).data, content.size, shape⟩).cut ranges = .ok view)
    (inside : position + count ≤ view.size) :
    Action.AlikeUntil bad (view.readAt position count)
      (do forM (chunker.asks shape.depth content (Section.offset ranges + position) count)
            (chunker.demand store)
          return content.slice (Section.offset ranges + position) count) := by
  obtain ⟨window, reach, word⟩ := window_of_shapeOf covered
  obtain ⟨same, within⟩ := Section.eq_of_cut_eq_ok sliced
  rw [Section.readAt_of_le _ inside, asks]
  by_cases empty : count = 0
  · rw [if_pos empty, if_pos empty, empty, Bytes.slice_zero]
    exact Action.AlikeUntil.refl bad _
  · have within : Section.offset ranges + view.size ≤ content.size := within
    rw [if_neg empty, if_neg empty, same]
    simp only [sectionOf, Section.whole, Nat.zero_add]
    rw [window]
    exact alike_readNode positive shape.depth truthful keyed (le_window_succ_of_shapeOf covered)
      (by omega) (Nat.pos_of_ne_zero empty) (by omega)

end Alike

end ChunkTree.Chunker
