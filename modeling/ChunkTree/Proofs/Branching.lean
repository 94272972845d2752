import ChunkTree.Proofs.Answers
import ChunkTree.Proofs.Endings

/-!
# Reading with another branching factor

One store may hold trees of several branching factors, and a root key does not say which one it is
of.  A reader of another factor takes the tree apart by windows of its own.  It never takes the keys
in a node for content, nor content for keys, since a leaf is much longer than a node over as much
content (`Chunker.branchCount_mul_keySize_lt`); and where it goes on to the branches of a node, their
sizes show whether its window is that of the node (`Chunker.width_eq_of_piece`).  So it finds the
tree malformed, or reads what the tree holds (`Chunker.join_of_other_branching`).
-/

namespace ChunkTree

/-- Something is wrong with how a chunk is made, though not with its digest. -/
def Fault.Malformed : Fault → Prop
  | .noSizeHeader _ | .impossibleSize _ _ | .noData _ | .sizeMismatch _ _ _ | .noBranchKey _ _
  | .branchesMismatch _ _ _ | .lengthMismatch _ _ _ => True
  | _ => False

variable {σ : Type}

/-- As long as its state is of some kind, the store has the data of the chunks under their keys, and
its state stays of that kind while these are got. -/
def Store.Provides (store : Store σ) (kind : σ → Prop) (chunks : Array Chunk) : Prop :=
  ∀ chunk ∈ chunks, ∀ state, kind state → ∃ held after,
    (store.get chunk.key).run state = (.ok (some held), after) ∧ held.data = chunk.data ∧ kind after

/-- States of a kind beside a transcript in which nothing but these chunks was asked for. -/
def Asking (kind : σ → Prop) (chunks : Array Chunk) (state : σ × Transcript) : Prop :=
  kind state.1 ∧ ∀ reply ∈ state.2, ∃ chunk ∈ chunks, chunk.key = reply.key

namespace Chunker

variable {writer reader : Chunker}

theorem malformed_of_checkLength {key : Key} {data : Bytes} {shape : Shape} {size : Nat}
    {fault : Fault} (failed : reader.checkLength key data shape size = .error fault) :
    fault.Malformed := by
  obtain none | ⟨expected, rfl⟩ := checkLength_eq_error failed
  · rw [dataLength] at none
    by_cases leaf : shape.depth = 0
    · rw [if_pos leaf] at none
      cases none
    · rw [if_neg leaf] at none
      by_cases outside : branchCount shape.window size = 0 ∨
          reader.branches < branchCount shape.window size
      · simp only [outside, ↓reduceIte] at none
        cases none
        trivial
      · simp only [outside, ↓reduceIte] at none
        cases none
  · trivial

theorem malformed_of_accept {key : Key} {data : Bytes} {shape : Shape} {size : Nat} {fault : Fault}
    (failed : reader.accept key data shape size = .error fault) : fault.Malformed := by
  obtain rfl | ⟨claimed, rfl⟩ | length := accept_eq_error failed
  · trivial
  · trivial
  · exact malformed_of_checkLength length

theorem malformed_of_rootOf {key : Key} {data : Bytes} {fault : Fault}
    (failed : reader.rootOf key data = .error fault) : fault.Malformed := by
  obtain rfl | ⟨size, rfl⟩ | ⟨size, shape, -, length⟩ := rootOf_eq_error failed
  · trivial
  · trivial
  · exact malformed_of_checkLength length

variable (writer) in
/-- The node of some content is a leaf, or has a window that the content fills. -/
theorem treeAt_cases (depth : Nat) (content : Bytes) :
    writer.treeAt depth content = leafOf content ∨
      ∃ lower, writer.window (lower + 1) ≤ content.size ∧
        writer.treeAt depth content = writer.treeAt (lower + 1) content := by
  induction depth with
  | zero => exact .inl rfl
  | succ depth ih =>
      by_cases short : content.size < writer.window (depth + 1)
      · rw [treeAt_of_lt short]
        exact ih
      · exact .inr ⟨depth, Nat.le_of_not_lt short, rfl⟩

/-- The node of no content is a leaf. -/
theorem treeAt_of_empty (positive : 0 < writer.chunkSize) (depth : Nat) {content : Bytes}
    (empty : content.size = 0) : writer.treeAt depth content = leafOf content := by
  obtain leaf | ⟨lower, full, -⟩ := treeAt_cases writer depth content
  · exact leaf
  · have wide := window_pos positive (lower + 1)
    omega

/-- The keys of the branches of a node are fewer bytes than the content that it covers. -/
theorem branchCount_mul_keySize_lt (small : reader.keySize * reader.branches < wordLimit)
    {depth size : Nat} (full : reader.window (depth + 1) ≤ size) :
    branchCount (reader.window (depth + 1)) size * reader.keySize < size := by
  have branches := reader.two_le_branches
  have some : 0 < reader.keySize := reader.keySize_pos
  have wide : 4 * reader.keySize ≤ reader.window (depth + 1) := by
    have least : reader.window 1 ≤ reader.window (depth + 1) := window_mono (by omega)
    rw [window_succ, window_zero, chunkSize_eq small, Nat.mul_assoc] at least
    have square : 2 * 2 ≤ reader.branches * reader.branches := Nat.mul_le_mul branches branches
    rw [Nat.mul_comm 4]
    exact Nat.le_trans (Nat.mul_le_mul_left _ square) least
  have positive : 0 < reader.window (depth + 1) := by omega
  have filled : 1 ≤ size / reader.window (depth + 1) :=
    (Nat.le_div_iff_mul_le positive).mpr (by omega)
  have count : branchCount (reader.window (depth + 1)) size ≤
      2 * (size / reader.window (depth + 1)) := by
    rw [branchCount]
    by_cases exact : size % reader.window (depth + 1) = 0
    · rw [if_pos exact]
      omega
    · rw [if_neg exact]
      omega
  calc branchCount (reader.window (depth + 1)) size * reader.keySize
      ≤ 2 * (size / reader.window (depth + 1)) * reader.keySize := Nat.mul_le_mul_right _ count
    _ < size / reader.window (depth + 1) * (4 * reader.keySize) := by
        rw [Nat.mul_comm 2, Nat.mul_assoc]
        exact Nat.mul_lt_mul_of_pos_left (by omega) filled
    _ ≤ size / reader.window (depth + 1) * reader.window (depth + 1) :=
        Nat.mul_le_mul_left _ wide
    _ ≤ size := Nat.div_mul_le_self _ _

/-- Two widths that cut a size into equally many pieces are the same if any two pieces at one index
are equally long. -/
theorem width_eq_of_piece {width other size index : Nat} (full : width ≤ size)
    (otherFull : other ≤ size) (positive : 0 < width) (otherPositive : 0 < other)
    (counts : branchCount width size = branchCount other size)
    (counted : index < branchCount width size)
    (sizes : min width (size - index * width) = min other (size - index * other)) :
    width = other := by
  have started := (lt_branchCount_iff positive index size).mp counted
  have otherStarted := (lt_branchCount_iff otherPositive index size).mp (counts ▸ counted)
  cases index with
  | zero => omega
  | succ index =>
      by_cases last : branchCount width size ≤ index + 2
      · -- The last pieces end where the size does, so they start at one place.
        have stop := (branchCount_le_iff positive (index + 2) size).mp last
        have otherStop := (branchCount_le_iff otherPositive (index + 2) size).mp (counts ▸ last)
        rw [Nat.succ_mul] at stop otherStop
        have start : (index + 1) * width = (index + 1) * other := by
          omega
        exact Nat.eq_of_mul_eq_mul_left (Nat.succ_pos index) start
      · have next := (lt_branchCount_iff positive (index + 2) size).mp (by omega)
        have otherNext := (lt_branchCount_iff otherPositive (index + 2) size).mp (by omega)
        rw [Nat.succ_mul] at next otherNext
        omega

/-- The data of a node states the length of its content, and no other size is accepted for it. -/
theorem size_eq_of_fits {key : Key} {depth : Nat} {content : Bytes} {shape : Shape} {size : Nat}
    (word : content.size < wordLimit)
    (fits : reader.Fits key (writer.treeAt depth content).data shape size) :
    content.size = size := by
  obtain ⟨⟨claimed, header, same⟩, -⟩ := fits
  rw [decode_treeAt, Except.ok.injEq] at header
  rw [← same, ← header, UInt64.toNat_ofNat_of_lt' word]

theorem branchKey_eq (hashers : reader.hasher = writer.hasher) (data : Bytes) (index : Nat) :
    reader.branchKey data index = writer.branchKey data index := by
  rw [branchKey, branchKey, keySize, keySize, hashers]

section Provided

variable {store : Store σ} {kind : σ → Prop} {chunks : Array Chunk}

/-- The data of a node that the store provides is fetched, and nothing else is asked for. -/
theorem ends_fetch (hashers : reader.hasher = writer.hasher) (provides : store.Provides kind chunks)
    {node : Tree} (emitted : writer.chunkOf node ∈ chunks)
    (long : (writer.hasher.digest node.data).size = writer.keySize) :
    (reader.fetch store.transcribed (writer.nameOf node.data)).Ends (Asking kind chunks)
      Fault.Malformed (· = node.data) := by
  rintro ⟨state, transcript⟩ ⟨start, asked⟩
  obtain ⟨held, after, got, holds, kept⟩ := provides _ emitted state start
  have named : reader.keyOf node.data = .ok (writer.nameOf node.data) := by
    have own := writer.keyOf_eq_ok_iff.mpr ⟨long, rfl⟩
    rw [keyOf, keySize] at own ⊢
    rwa [hashers]
  have answered : (store.get (writer.nameOf node.data)).run state = (.ok (some held), after) := got
  have fetched : (reader.fetch store.transcribed (writer.nameOf node.data)).run
      (state, transcript) =
        (.ok node.data, after, transcript ++ [⟨writer.nameOf node.data, held.data⟩]) := by
    refine run_fetch_eq_ok_iff.mpr ⟨⟨held, ?_, holds⟩, named⟩
    rw [Store.run_get_transcribed, answered]
    rfl
  rw [fetched]
  refine ⟨⟨kept, fun reply member => ?_⟩, rfl⟩
  rcases List.mem_append.mp member with earlier | latest
  · exact asked reply earlier
  · rw [List.mem_singleton.mp latest]
    exact ⟨_, emitted, rfl⟩

theorem ends_fetchBranch (hashers : reader.hasher = writer.hasher)
    (provides : store.Provides kind chunks) {node : Tree} (emitted : writer.chunkOf node ∈ chunks)
    (long : (writer.hasher.digest node.data).size = writer.keySize) (shape : Shape) (size : Nat) :
    (reader.fetchBranch store.transcribed (writer.nameOf node.data) shape size).Ends
      (Asking kind chunks) Fault.Malformed fun data =>
        data = node.data ∧ reader.Fits (writer.nameOf node.data) node.data shape size := by
  refine (ends_fetch hashers provides emitted long).bind ?_
  rintro _ rfl
  refine Action.Ends.bind (Action.Ends.lift (fun _ checked => accept_eq_ok_iff.mp checked) ?_) ?_
  · intro fault failed
    exact malformed_of_accept failed
  · intro _ fits
    exact Action.Ends.pure ⟨rfl, fits⟩

/-- A node that the reader accepts for one of its own was made with the window that the reader takes
it to have, at least as far as a branch of it is accepted too. -/
theorem ends_readBranch (hashers : reader.hasher = writer.hasher)
    (small : writer.keySize * writer.branches < wordLimit)
    (readerSmall : reader.keySize * reader.branches < wordLimit)
    (provides : store.Provides kind chunks) {depth lower : Nat} {content : Bytes}
    {position stop index : Nat} {answer : Bytes}
    (keyed : writer.Keyed (writer.treeAt (lower + 1) content))
    (emitted : ∀ node ∈ (writer.treeAt (lower + 1) content).preorder, writer.chunkOf node ∈ chunks)
    (word : content.size < wordLimit) (full : writer.window (lower + 1) ≤ content.size)
    (readerFull : reader.window (depth + 1) ≤ content.size)
    (counts : branchCount (writer.window (lower + 1)) content.size =
      branchCount (reader.window (depth + 1)) content.size)
    (counted : index < branchCount (reader.window (depth + 1)) content.size)
    (read : ∀ piece key, content.piece (reader.window (depth + 1)) index = piece →
      writer.treeAt lower piece ∈ (writer.treeAt (lower + 1) content).branches →
      reader.Fits key (writer.treeAt lower piece).data
        (Shape.settle reader.branches piece.size depth (reader.window depth)) piece.size →
      (reader.readNode store.transcribed depth (reader.window depth)
        (writer.treeAt lower piece).data piece.size
        (max position (index * reader.window (depth + 1)) - index * reader.window (depth + 1))
        (min stop (index * reader.window (depth + 1) + piece.size) -
          max position (index * reader.window (depth + 1)))).Ends
        (Asking kind chunks) Fault.Malformed (· = answer)) :
    (reader.readBranch store.transcribed depth (reader.window (depth + 1))
        (writer.treeAt (lower + 1) content).data content.size position stop index).Ends
      (Asking kind chunks) Fault.Malformed (· = answer) := by
  have wide := window_pos (chunkSize_pos small) (lower + 1)
  have readerWide := window_pos (chunkSize_pos readerSmall) (depth + 1)
  have member := treeAt_piece_mem_branches full (counts ▸ counted)
  have root := Tree.mem_preorder_of_branch member (Tree.mem_preorder_self _)
  unfold readBranch
  rw [window_succ_div, branchKey_eq hashers, branchKey_treeAt full keyed (counts ▸ counted)]
  refine (ends_fetchBranch hashers provides (emitted _ root) (keyed _ root) _ _).bind ?_
  rintro _ ⟨rfl, fits⟩
  have length := Bytes.size_piece (writer.window (lower + 1)) content index
  have sizes := size_eq_of_fits (by omega) fits
  have windows : writer.window (lower + 1) = reader.window (depth + 1) :=
    width_eq_of_piece full readerFull wide readerWide counts (counts ▸ counted) (length ▸ sizes)
  rw [windows] at member fits sizes ⊢
  rw [← sizes] at fits ⊢
  exact read _ _ rfl member fits

/-- **What a reader of another branching factor makes of a node.** It reads a range of the content
under the node, or finds the tree malformed. -/
theorem ends_readNode (hashers : reader.hasher = writer.hasher)
    (small : writer.keySize * writer.branches < wordLimit)
    (readerSmall : reader.keySize * reader.branches < wordLimit)
    (provides : store.Provides kind chunks) (depth : Nat) {level : Nat} {content : Bytes} {key : Key}
    {position count : Nat} (keyed : writer.Keyed (writer.treeAt level content))
    (emitted : ∀ node ∈ (writer.treeAt level content).preorder, writer.chunkOf node ∈ chunks)
    (fits : reader.Fits key (writer.treeAt level content).data
      (Shape.settle reader.branches content.size depth (reader.window depth)) content.size)
    (nonempty : 0 < count) (inside : position + count ≤ content.size) :
    (reader.readNode store.transcribed depth (reader.window depth)
        (writer.treeAt level content).data content.size position count).Ends
      (Asking kind chunks) Fault.Malformed (· = content.slice position count) := by
  have keySizes : reader.keySize = writer.keySize := congrArg Hasher.digestLength hashers
  induction depth generalizing level content key position count with
  | zero =>
      rcases treeAt_cases writer level content with leaf | ⟨lower, full, node⟩
      · have whole : (leafOf content).data.slice (Header.length + position) count =
            content.slice position count := by
          rw [leafOf, ← Header.size_encode (UInt64.ofNat content.size), Bytes.slice_append_right]
        rw [leaf, readNode]
        exact Action.Ends.pure whole
      · -- A leaf of this size would be longer than the node.
        rw [node] at keyed fits
        obtain ⟨body, data, length⟩ := fits.leaf
        have keys := size_data_treeAt_of_le full keyed
        have fewer := branchCount_mul_keySize_lt small full
        rw [data, Array.size_append, Header.size_encode] at keys
        omega
  | succ depth ih =>
      by_cases short : content.size < reader.window (depth + 1)
      · rw [Shape.settle_of_lt short, window_succ_div] at fits
        rw [readNode_of_lt short, window_succ_div]
        exact ih keyed emitted fits nonempty inside
      have readerFull := Nat.le_of_not_lt short
      have word := fits.lt_wordLimit
      have readerWide := window_pos (chunkSize_pos readerSmall) (depth + 1)
      rw [Shape.settle_of_le readerFull] at fits
      obtain ⟨body, data, length⟩ := fits.node readerSmall
      rcases treeAt_cases writer level content with leaf | ⟨lower, full, node⟩
      · -- A node over this much content would be shorter than the leaf.
        have fewer := branchCount_mul_keySize_lt readerSmall readerFull
        have size := congrArg Array.size data
        rw [leaf, leafOf, Array.size_append, Array.size_append, Header.size_encode] at size
        omega
      rw [node] at keyed emitted data ⊢
      have counts : branchCount (writer.window (lower + 1)) content.size =
          branchCount (reader.window (depth + 1)) content.size := by
        have keys := size_data_treeAt_of_le full keyed
        rw [data, Array.size_append, Header.size_encode, length, keySizes] at keys
        exact Nat.eq_of_mul_eq_mul_right writer.keySize_pos (by omega)
      have order : position < position + count := Nat.lt_add_of_pos_right nonempty
      have clips := Bytes.concat_clips readerWide content order inside
      rw [Nat.add_sub_cancel_left] at clips
      rw [readNode_of_le readerFull]
      by_cases cut : (writer.treeAt (lower + 1) content).data.size < Header.length +
          ((position + count - 1) / reader.window (depth + 1) + 1) * reader.keySize
      · rw [if_pos cut]
        exact Action.Ends.throw trivial
      rw [if_neg cut, ← clips]
      refine Action.Ends.bind (Action.Ends.mapM fun index meets => ?_) fun parts same =>
        Action.Ends.pure (congrArg Bytes.concat same)
      obtain ⟨started, some, within⟩ := Bytes.clip_inside readerWide order inside meets
      have counted := (lt_branchCount_iff readerWide index content.size).mpr started
      apply ends_readBranch hashers small readerSmall provides keyed emitted word full readerFull
        counts counted
      rintro piece key rfl member branchFits
      rw [← Bytes.size_piece] at some within ⊢
      exact ih (keyed.branch member)
        (fun inner below => emitted inner (Tree.mem_preorder_of_branch member below)) branchFits
        some within

/-- **The wrong branching factor never gives wrong bytes.** Split some content with one branching
factor, and let a store provide the chunks.  Whoever joins the root key with another branching factor
finds the tree malformed, or a section of the content's length, of which every range of every slice
reads right or turns out to be malformed; and the store is asked for nothing but those chunks. -/
theorem join_of_other_branching (hashers : reader.hasher = writer.hasher)
    (small : writer.keySize * writer.branches < wordLimit)
    (readerSmall : reader.keySize * reader.branches < wordLimit) {content : Bytes} {root : Key}
    (split : writer.chunksOf content = .ok (root, chunks))
    (provides : store.Provides kind chunks) :
    (reader.join store.transcribed root).Ends (Asking kind chunks) Fault.Malformed fun part =>
      part.size = content.size ∧
        ∀ ranges view, part.cut ranges = .ok view →
          ∀ position count, position + count ≤ view.size →
            (view.readAt position count).Ends (Asking kind chunks) Fault.Malformed
              (· = content.slice (Section.offset ranges + position) count) := by
  obtain ⟨tree, covered, keyed, rfl, listed⟩ := (chunksOf_eq_ok_iff (chunkSize_pos small)).mp split
  obtain ⟨shape, fits, rfl⟩ := treeOf_eq_ok_iff.mp covered
  obtain ⟨-, reach, word⟩ := window_of_shapeOf fits
  have emitted : ∀ node ∈ (writer.treeAt shape.depth content).preorder,
      writer.chunkOf node ∈ chunks := by
    intro node member
    rw [listed]
    exact chunkOf_mem_postorder member
  have opens : (reader.openRoot store.transcribed
      (writer.nameOf (writer.treeAt shape.depth content).data)).Ends (Asking kind chunks)
        Fault.Malformed fun node =>
          reader.rootOf (writer.nameOf (writer.treeAt shape.depth content).data)
            (writer.treeAt shape.depth content).data = .ok node := by
    refine (ends_fetch hashers provides (emitted _ (Tree.mem_preorder_self _))
      keyed.digest_size).bind ?_
    rintro _ rfl
    exact Action.Ends.lift (fun _ made => made) fun _ failed => malformed_of_rootOf failed
  refine opens.bind fun node made => Action.Ends.pure ?_
  rcases node with ⟨data, size, readerShape⟩
  obtain ⟨rfl, readerCovered, rootFits⟩ := rootOf_eq_ok_iff.mp made
  obtain ⟨window, -, -⟩ := window_of_shapeOf readerCovered
  obtain rfl : content.size = size := size_eq_of_fits (Nat.lt_of_le_of_lt reach word) rootFits
  refine ⟨rfl, fun ranges view sliced position count inside => ?_⟩
  obtain ⟨same, within⟩ := Section.eq_of_cut_eq_ok sliced
  have within : Section.offset ranges + view.size ≤ content.size := within
  rw [Section.readAt_of_le _ inside]
  by_cases empty : count = 0
  · rw [if_pos empty, empty, Bytes.slice_zero]
    exact Action.Ends.pure rfl
  · rw [if_neg empty, same]
    simp only [sectionOf, Section.whole, Nat.zero_add]
    simp only [Shape.normalize] at rootFits
    rw [window] at rootFits ⊢
    exact ends_readNode hashers small readerSmall provides readerShape.depth keyed emitted rootFits
      (Nat.pos_of_ne_zero empty) (by omega)

end Provided

/-- A chunker like `tiny`, with four branches to a node. -/
def broad : Chunker := { tiny with branches := 4, two_le_branches := by decide }

/-- The chunks of the numbers from one to nineteen in a tree of four branches to a node. -/
def broadChunks : Array Chunk :=
  #[⟨⟨#[152]⟩, some #[16, 0, 0, 0, 0, 0, 0, 0, 1, 2, 3, 4, 5, 6, 7, 8, 9, 10, 11, 12, 13, 14, 15, 16],
      16⟩,
    ⟨⟨#[57]⟩, some #[3, 0, 0, 0, 0, 0, 0, 0, 17, 18, 19], 3⟩,
    ⟨⟨#[228]⟩, some #[19, 0, 0, 0, 0, 0, 0, 0, 152, 57], 19⟩]

/-- The answers of a store that holds these chunks. -/
def broadAnswers : Answers := fun key => .ok (broadChunks.find? (·.key = key))

/-- Both factors give this root two branches of one window.  Of these the second is a leaf for both,
and the first only for the one that made it. -/
theorem join_of_four_branches_with_two :
    ∃ part opened, (tiny.join (Store.answering broadAnswers : Store Unit).transcribed
        ⟨#[228]⟩).run ((), []) = (.ok part, opened) ∧
      (∀ position count, position + count ≤ 19 →
        (part.readAt position count).Ends (Asking (fun _ => True) broadChunks) Fault.Malformed
          (· = Bytes.slice #[1, 2, 3, 4, 5, 6, 7, 8, 9, 10, 11, 12, 13, 14, 15, 16, 17, 18, 19]
            position count)) ∧
      ((part.readAt 17 2).run opened).1 = .ok #[18, 19] ∧
      ((part.readAt 15 2).run opened).1 = .error (.lengthMismatch ⟨#[152]⟩ 24 10) := by
  have split : broad.chunksOf
      #[1, 2, 3, 4, 5, 6, 7, 8, 9, 10, 11, 12, 13, 14, 15, 16, 17, 18, 19] =
        .ok (⟨#[228]⟩, broadChunks) := by
    decide +kernel
  have provides : (Store.answering broadAnswers : Store Unit).Provides (fun _ => True)
      broadChunks := by
    have each : ∀ chunk ∈ broadChunks, broadAnswers chunk.key = .ok (some chunk) := by
      decide +kernel
    intro chunk member state start
    exact ⟨chunk, state, congrArg (fun outcome => (outcome, state)) (each chunk member), rfl, start⟩
  have opened : (tiny.openRoot (Store.answering broadAnswers : Store Unit).transcribed
        ⟨#[228]⟩).run ((), []) =
      (.ok ⟨#[19, 0, 0, 0, 0, 0, 0, 0, 152, 57], 19, ⟨4, 32⟩⟩, (), [⟨⟨#[228]⟩, some
        #[19, 0, 0, 0, 0, 0, 0, 0, 152, 57]⟩]) := by
    with_unfolding_all rfl
  have joined := run_join_eq_ok_iff.mpr ⟨_, opened, rfl⟩
  have hashers : tiny.hasher = broad.hasher := rfl
  have ends := join_of_other_branching hashers (by decide) (by decide) split provides ((), [])
    ⟨trivial, fun _ never => absurd never List.not_mem_nil⟩
  rw [joined] at ends
  obtain ⟨-, -, reads⟩ := ends
  refine ⟨_, _, joined, fun position count inside => ?_, ?_, ?_⟩
  · have reads := reads [] _ rfl position count inside
    rwa [Section.offset, List.map_nil, List.sum_nil, Nat.zero_add] at reads
  · decide +kernel
  · decide +kernel

end Chunker

end ChunkTree
