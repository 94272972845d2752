import ChunkTree.Proofs.Damage
import ChunkTree.Proofs.Encoding
import ChunkTree.Proofs.Leaves
import ChunkTree.Proofs.Provided
import Mathlib.Data.Nat.Count
import Mathlib.Order.Interval.Finset.Nat

/-!
# What streaming fetches again

Content that is streamed goes down its tree once for every piece, so a node that has something of two
pieces is fetched twice.  Nodes start where pieces start, whatever levels have been dropped above them
(`Chunker.place_of_mem_spans`); so a node is fetched once for every piece that its length fills or
starts, and a leaf, which is no longer than a piece, only once (`Archive.fetches_of_readTo`).
-/

namespace ChunkTree

variable {σ : Type}

theorem Span.meets_min_iff {span : Span} {size : Nat} (inside : span.stop ≤ size)
    (position width : Nat) :
    span.Meets position (min width (size - position)) ↔ span.Meets position width := by
  simp only [Span.Meets]
  omega

/-- Each choice counts once for an item that it takes. -/
theorem count_flatMap_filter {α ι : Type} [DecidableEq α] {items : List α} {item : α}
    (distinct : items.Nodup) (member : item ∈ items) (takes : ι → α → Bool) (choices : List ι) :
    (choices.flatMap fun choice => items.filter (takes choice)).count item =
      choices.countP (takes · item) := by
  induction choices with
  | nil => rfl
  | cons choice rest ih =>
      rw [List.flatMap_cons, List.count_append, ih, List.countP_cons, Nat.add_comm,
        Nat.add_left_cancel_iff]
      by_cases taken : takes choice item = true
      · rw [if_pos taken, List.count_filter taken, List.count_eq_one_of_mem distinct member]
      · rw [if_neg taken, List.count_eq_zero]
        exact fun kept => taken (List.mem_filter.mp kept).2

/-- As many indexes are in a range as it is wide. -/
theorem countP_range (low : Nat) {width size : Nat} (inside : low + width ≤ size)
    {choice : Nat → Bool}
    (chosen : ∀ index, choice index = true ↔ low ≤ index ∧ index < low + width) :
    (List.range size).countP choice = width := by
  have range : (Finset.range size).filter (choice · = true) = Finset.Ico low (low + width) := by
    ext index
    rw [Finset.mem_filter, Finset.mem_range, Finset.mem_Ico, chosen]
    omega
  have counted := Nat.count_eq_card_filter_range (choice · = true) size
  rw [range, Nat.card_Ico, Nat.add_sub_cancel_left] at counted
  rw [← counted, Nat.count]
  simp only [Bool.decide_eq_true]

namespace Tree

/-- The nodes below the root that have something of a piece, for so many pieces of a width from a
position on. -/
def piecewise (tree : Tree) (width pieces position : Nat) : List Span :=
  (List.range pieces).flatMap fun index =>
    tree.descendants.filter (·.Meets (position + index * width) width)

/-- What streaming content in pieces of a width comes to: the root of its tree, and then what each of
the pieces meets. -/
def streamed (tree : Tree) (width : Nat) : List Span :=
  ⟨0, tree⟩ :: tree.piecewise width (branchCount width tree.size) 0

theorem mem_descendants_of_mem_piecewise {tree : Tree} {width pieces position : Nat} {span : Span}
    (member : span ∈ tree.piecewise width pieces position) : span ∈ tree.descendants := by
  obtain ⟨index, -, met⟩ := List.mem_flatMap.mp member
  exact (List.mem_filter.mp met).1

theorem mem_spans_of_mem_streamed {tree : Tree} {width : Nat} {span : Span}
    (member : span ∈ tree.streamed width) : span ∈ tree.spans 0 := by
  rw [spans_eq]
  rcases List.mem_cons.mp member with rfl | later
  · exact List.mem_cons_self
  · exact List.mem_cons_of_mem _ (mem_descendants_of_mem_piecewise later)

/-- The nodes for the first piece, and those for the pieces behind it. -/
theorem piecewise_succ {tree : Tree} {size width pieces position : Nat}
    (inside : ∀ span ∈ tree.descendants, span.stop ≤ size)
    (full : pieces ≠ 0 → width ≤ size - position) :
    tree.piecewise width (pieces + 1) position =
      tree.descendants.filter (·.Meets position (min width (size - position))) ++
        tree.piecewise width pieces (position + min width (size - position)) := by
  rw [piecewise, List.range_succ_eq_map, List.flatMap_cons, List.flatMap_map, Nat.zero_mul,
    Nat.add_zero]
  congr 1
  · apply List.filter_congr
    intro span member
    rw [decide_eq_decide, Span.meets_min_iff (inside span member)]
  · rcases Nat.eq_zero_or_pos pieces with rfl | more
    · rfl
    · rw [Nat.min_eq_left (full more.ne'), piecewise]
      simp only [Nat.succ_mul, Nat.add_assoc, Nat.add_comm width]

/-- Content that is no longer than a piece is one piece. -/
theorem piecewise_min {tree : Tree} {size : Nat} (width : Nat) (nonempty : 0 < size)
    (inside : ∀ span ∈ tree.descendants, span.stop ≤ size) :
    tree.piecewise (min width size) (branchCount (min width size) size) 0 =
      tree.piecewise width (branchCount width size) 0 := by
  by_cases long : width ≤ size
  · rw [Nat.min_eq_left long]
  · have short := Nat.le_of_not_le long
    have wide : 0 < width := by omega
    have single : branchCount width size = 1 := by
      rw [branchCount_of_pos wide nonempty, Nat.sub_eq_zero_of_le short, branchCount_zero]
    rw [Nat.min_eq_right short, single, (branchCount_eq_one_iff nonempty le_rfl).mpr rfl, piecewise,
      piecewise]
    apply List.flatMap_congr
    intro index only
    obtain rfl : index = 0 := by simpa using only
    apply List.filter_congr
    intro span member
    have part := Span.meets_min_iff (inside span member) 0 width
    rw [Nat.sub_zero, Nat.min_eq_right short] at part
    rw [Nat.zero_mul, Nat.zero_mul, decide_eq_decide]
    exact part

open Classical in
/-- A node that starts where a piece starts is there for each of the pieces that cover it. -/
theorem count_piecewise {tree : Tree} {size : Nat} (distinct : tree.descendants.Nodup) {span : Span}
    (member : span ∈ tree.descendants) (inside : span.stop ≤ size)
    (nonempty : 0 < span.node.size) {width : Nat} (wide : 0 < width)
    (aligned : width ∣ span.start) :
    (tree.piecewise width (branchCount width size) 0).count span =
      branchCount width span.node.size := by
  obtain ⟨before, start⟩ := aligned
  rw [Nat.mul_comm] at start
  have stop : span.stop = before * width + span.node.size := by rw [Span.stop, start]
  have pieces := branchCount_mul_add wide before span.node.size
  rw [← stop] at pieces
  rw [piecewise, count_flatMap_filter distinct member
    (fun index (span : Span) => decide (span.Meets (0 + index * width) width))]
  refine countP_range before ?_ fun index => ?_
  · rw [← pieces, branchCount_le_iff wide]
    exact inside.trans ((branchCount_le_iff wide _ _).mp le_rfl)
  · have first : before ≤ index ↔ before * width < index * width + width := by
      rw [← Nat.succ_mul, Nat.mul_lt_mul_right wide, Nat.lt_succ_iff]
    rw [decide_eq_true_eq, first, ← pieces, lt_branchCount_iff wide, Span.Meets]
    omega

end Tree

namespace Chunker

variable {chunker : Chunker} {answers : Answers}

theorem repliesTo_of_undamaged {nodes : List Tree}
    (fine : ∀ node ∈ nodes, chunker.damage? answers node = none) :
    chunker.repliesTo answers nodes = nodes.map chunker.replyOf := by
  apply List.map_congr_left
  intro node member
  obtain ⟨⟨held, found, holds⟩, -⟩ := damage?_eq_none_iff.mp (fine node member)
  rw [found, Reply.to, holds, replyOf]

/-- Nodes start where the smallest windows do, and those without branches are no longer. -/
theorem place_of_mem_spans (positive : 0 < chunker.chunkSize) (depth : Nat) {start : Nat}
    {content : Bytes} (nonempty : 0 < content.size)
    (reach : content.size ≤ chunker.window (depth + 1)) (aligned : chunker.window 1 ∣ start)
    {span : Span} (member : span ∈ Tree.spans start (chunker.treeAt depth content)) :
    chunker.window 1 ∣ span.start ∧
      (span.node.branches = [] → span.node.size ≤ chunker.window 1) := by
  induction depth generalizing start content with
  | zero =>
      rw [treeAt, leafOf, Tree.spans, Tree.spansOf, List.mem_singleton] at member
      subst member
      exact ⟨aligned, fun _ => reach⟩
  | succ depth ih =>
      by_cases short : content.size < chunker.window (depth + 1)
      · rw [treeAt_of_lt short] at member
        exact ih nonempty short.le aligned member
      · have full := Nat.le_of_not_lt short
        have wide := window_pos positive (depth + 1)
        rw [Tree.spans_eq, List.mem_cons, spansOf_branches_treeAt start positive full] at member
        rcases member with rfl | member
        · refine ⟨aligned, fun none => ?_⟩
          rw [branches_treeAt_of_le full, Bytes.pieces_of_nonempty wide nonempty] at none
          cases none
        · obtain ⟨index, counted, member⟩ := List.mem_flatMap.mp member
          have started := mul_lt_of_lt_branchCount (List.mem_range.mp counted)
          have length := Bytes.size_piece (chunker.window (depth + 1)) content index
          have multiple : chunker.window 1 ∣ chunker.window (depth + 1) :=
            window_dvd (Nat.le_add_left 1 depth)
          exact ih (by omega) (by omega)
            (Nat.dvd_add aligned (Nat.dvd_mul_left_of_dvd multiple index)) member

theorem stop_le_of_mem_descendants (positive : 0 < chunker.chunkSize) (depth : Nat)
    {content : Bytes} (nonempty : 0 < content.size) :
    ∀ span ∈ (chunker.treeAt depth content).descendants, span.stop ≤ content.size := by
  intro span member
  have bounds := (bounds_of_mem_spansOf positive depth nonempty member).2.2
  rwa [Nat.zero_add] at bounds

theorem nodup_root_descendants (positive : 0 < chunker.chunkSize) (depth : Nat) (content : Bytes) :
    ⟨0, chunker.treeAt depth content⟩ ∉ (chunker.treeAt depth content).descendants ∧
      (chunker.treeAt depth content).descendants.Nodup := by
  have distinct := nodup_spans positive depth 0 content
  rw [Tree.spans_eq] at distinct
  exact List.nodup_cons.mp distinct

section Counts

open Classical

/-- Streaming comes to the root once. -/
theorem count_root_streamed (positive : 0 < chunker.chunkSize) (depth : Nat) (content : Bytes)
    (width : Nat) :
    ((chunker.treeAt depth content).streamed width).count ⟨0, chunker.treeAt depth content⟩ = 1 := by
  have apart := (nodup_root_descendants positive depth content).1
  rw [Tree.streamed, List.count_cons_self, List.count_eq_zero_of_not_mem fun again =>
    apart (Tree.mem_descendants_of_mem_piecewise again)]

/-- Streaming comes to a node below the root once for each piece that covers it, and one piece covers
a leaf. -/
theorem count_streamed (positive : 0 < chunker.chunkSize) {depth : Nat} {content : Bytes}
    (reach : content.size ≤ chunker.window (depth + 1)) {span : Span}
    (member : span ∈ (chunker.treeAt depth content).descendants) :
    ((chunker.treeAt depth content).streamed (chunker.window 1)).count span =
        branchCount (chunker.window 1) span.node.size ∧
      (span.node.branches = [] → branchCount (chunker.window 1) span.node.size = 1) := by
  have wide := window_pos positive 1
  have nonempty : 0 < content.size := by
    by_contra empty
    rw [Tree.descendants, treeAt_of_empty positive depth (Nat.eq_zero_of_not_pos empty)] at member
    exact absurd member List.not_mem_nil
  obtain ⟨apart, distinct⟩ := nodup_root_descendants positive depth content
  have among : span ∈ Tree.spans 0 (chunker.treeAt depth content) := by
    rw [Tree.spans_eq]
    exact List.mem_cons_of_mem _ member
  have filled : 0 < span.node.size :=
    Nat.lt_add_right_iff_pos.mp (bounds_of_mem_spans positive depth nonempty among).2.1
  obtain ⟨aligned, leaf⟩ := place_of_mem_spans positive depth nonempty reach (Nat.dvd_zero _) among
  constructor
  · have other : ⟨0, chunker.treeAt depth content⟩ ≠ span := fun same => apart (same ▸ member)
    rw [Tree.streamed, size_treeAt, List.count_cons_of_ne other]
    exact Tree.count_piecewise distinct member
      (stop_le_of_mem_descendants positive depth nonempty span member) filled wide aligned
  · intro none
    rw [branchCount_of_pos wide filled, Nat.sub_eq_zero_of_le (leaf none), branchCount_zero]

end Counts

end Chunker

namespace Archive

section Table

variable {chunker : Chunker} {answers : Answers} {content : Bytes} {shape : Shape}
  (positive : 0 < chunker.chunkSize) (covered : chunker.shapeOf content.size = .ok shape)
  (keyed : chunker.Keyed (chunker.treeAt shape.depth content))
  (whole : Undamaged chunker answers (chunker.treeAt shape.depth content))
  (short : ∀ node ∈ (chunker.treeAt shape.depth content).preorder, node.data.size < wordLimit)
include positive covered keyed whole short

/-- A range of the content is read, and what is fetched are the nodes below the root that meet it. -/
theorem run_readAt_of_undamaged {position count : Nat} (inside : position + count ≤ content.size)
    (transcript : Transcript) :
    ((chunker.sectionOf (Store.answering answers : Store Unit).transcribed
        ⟨(chunker.treeAt shape.depth content).data, content.size, shape⟩).readAt position count).run
        ((), transcript) =
      (.ok (content.slice position count), (), transcript ++
        (Chunker.meeting (chunker.treeAt shape.depth content) position count).map
          chunker.replyOf) := by
  have fine : ∀ node ∈ Chunker.meeting (chunker.treeAt shape.depth content) position count,
      chunker.damage? answers node = none := fun node met =>
    damage?_of_undamaged whole short
      (Chunker.mem_preorder_of_mem_meeting positive shape.depth inside met)
  have table : (Store.answering answers : Store Unit).transcribed.Steady (fun _ => True) answers :=
    (Store.steady_answering answers).transcribed
  have goes : ∀ node ∈ Chunker.meeting (chunker.treeAt shape.depth content) position count,
      (chunker.damage? answers node).isSome = false := fun node met =>
    congrArg Option.isSome (fine node met)
  rw [Chunker.run_readAt_sectionOf positive table covered whole.trueTo keyed inside,
    findSome?_meeting_of_undamaged positive whole short inside, upTo_eq_self goes,
    Chunker.foldl_get_transcribed, Chunker.repliesTo_of_undamaged fine]
  rfl

/-- What is left is written in pieces, and what is fetched are the nodes below the root that each of
them meets. -/
theorem run_copy_of_undamaged {width : Nat} (wide : 0 < width) {pieces position : Nat}
    (within : position ≤ content.size)
    (left : branchCount width (content.size - position) = pieces) (transcript : Transcript) :
    (copy (chunker.sectionOf (Store.answering answers : Store Unit).transcribed
        ⟨(chunker.treeAt shape.depth content).data, content.size, shape⟩) (fun _ => pure true) width
        pieces position).run ((), transcript) =
      (.ok content.size, (), transcript ++
        ((chunker.treeAt shape.depth content).piecewise width pieces position).map fun span =>
          chunker.replyOf span.node) := by
  induction pieces generalizing position transcript with
  | zero =>
      have done : content.size - position ≤ 0 * width :=
        (branchCount_le_iff wide 0 _).mp left.le
      obtain rfl : position = content.size := by omega
      rw [copy, Tree.piecewise, List.range_zero, List.flatMap_nil, List.map_nil, List.append_nil]
      rfl
  | succ pieces ih =>
      obtain ⟨nonempty, later⟩ := branchCount_behind wide left
      have inside : position + min width (content.size - position) ≤ content.size := by omega
      have full : pieces ≠ 0 → width ≤ content.size - position := by
        intro more
        by_contra last
        rw [Nat.min_eq_right (by omega), Nat.sub_self, branchCount_zero] at later
        exact more later.symm
      have read := run_readAt_of_undamaged positive covered keyed whole short inside transcript
      have spans := Tree.piecewise_succ
        (Chunker.stop_le_of_mem_descendants positive shape.depth (by omega)) full
      rw [Nat.sub_sub] at later
      have rest := ih inside later (transcript ++
        (Chunker.meeting (chunker.treeAt shape.depth content) position
          (min width (content.size - position))).map chunker.replyOf)
      -- The first piece adds the nodes that it meets to the transcript, and the others go on from there.
      rw [copy, Chunker.size_sectionOf, Action.run_bind, read, spans, List.map_append,
        ← List.append_assoc]
      rw [Chunker.meeting, List.map_map] at rest ⊢
      exact rest

/-- Content is written out, and what is fetched are its root and then, for each piece, the nodes
below the root that the piece meets. -/
theorem run_readTo_of_undamaged (streams : chunker.pieceSize ≠ 0) (transcript : Transcript) :
    ((⟨chunker, (Store.answering answers : Store Unit).transcribed⟩ : Archive _).readTo
        (chunker.nameOf (chunker.treeAt shape.depth content).data) fun _ => pure true).run
        ((), transcript) =
      (.ok content.size, (), transcript ++
        ((chunker.treeAt shape.depth content).streamed chunker.pieceSize).map fun span =>
          chunker.replyOf span.node) := by
  have fine : chunker.damage? answers (chunker.treeAt shape.depth content) = none :=
    damage?_of_undamaged whole short (Tree.mem_preorder_self _)
  have opened := Chunker.run_openRoot_transcribed positive covered whole.trueTo keyed transcript
  rw [fine, Chunker.repliesTo_of_undamaged fun node only => List.mem_singleton.mp only ▸ fine]
    at opened
  simp only [readTo, openAt, Chunker.join, bind_assoc, pure_bind]
  rw [Action.run_bind, opened]
  simp only [answerUnless, writeOut, pieceOf, Chunker.size_sectionOf, Tree.streamed,
    Chunker.size_treeAt]
  rcases Nat.eq_zero_or_pos content.size with empty | nonempty
  · rw [empty, branchCount_zero, branchCount_zero]
    rfl
  · have wide : 0 < min chunker.pieceSize content.size := by omega
    have copied := run_copy_of_undamaged positive covered keyed whole short wide (Nat.zero_le _) rfl
      (transcript ++ [chunker.replyOf (chunker.treeAt shape.depth content)])
    rw [Nat.sub_zero, List.append_assoc, Tree.piecewise_min chunker.pieceSize nonempty
      (Chunker.stop_le_of_mem_descendants positive shape.depth nonempty)] at copied
    exact copied

end Table

/-- Whatever else a store has, and whatever is done to its state, what is fetched is the same. -/
theorem run_readTo_of_provides {chunker : Chunker} {content : Bytes} {shape : Shape}
    (positive : 0 < chunker.chunkSize) (covered : chunker.shapeOf content.size = .ok shape)
    (keyed : chunker.Keyed (chunker.treeAt shape.depth content))
    (short : ∀ node ∈ (chunker.treeAt shape.depth content).preorder, node.data.size < wordLimit)
    (streams : chunker.pieceSize ≠ 0) {store : Store σ} {kind : σ → Prop}
    (provides : store.Provides kind
      ((chunker.treeAt shape.depth content).postorder.map chunker.chunkOf).toArray)
    {sink : Sink σ} (takes : ∀ bytes state, kind state →
      ∃ after, (sink bytes).run state = (.ok true, after) ∧ kind after)
    {state : σ} (start : kind state) (transcript : Transcript) :
    ∃ after, kind after ∧
      ((⟨chunker, store.transcribed⟩ : Archive _).readTo
          (chunker.nameOf (chunker.treeAt shape.depth content).data) fun bytes =>
          (sink bytes).within .fst).run (state, transcript) =
        (.ok content.size, after, transcript ++
          ((chunker.treeAt shape.depth content).streamed chunker.pieceSize).map fun span =>
            chunker.replyOf span.node) := by
  let looks (seen : Unit × Transcript) (state : σ × Transcript) : Prop :=
    kind state.1 ∧ state.2 = seen.2
  have model := run_readTo_of_undamaged positive covered keyed (provides.undamaged start) short
    streams transcript
  have fetches := provides.supplies.transcribed.realizes_fetch chunker
  have sinks : ∀ bytes, Action.Realizes looks (pure true) ((sink bytes).within .fst) := by
    rintro bytes ⟨_, _⟩ ⟨state, transcript⟩ ⟨start, rfl⟩ answer left taken
    cases taken
    obtain ⟨after, ran, kept⟩ := takes bytes state start
    refine ⟨(after, transcript), ?_, kept, rfl⟩
    rw [Action.run_within]
    simp only [Place.fst, ran]
  have realizes := @relates_readTo_of_fetch _ _ _ ⟨chunker, _⟩ ⟨chunker, store.transcribed⟩
    (Action.Realizes.compatible looks) rfl fetches _ _ sinks
  obtain ⟨⟨after, log⟩, ran, kept, same⟩ :=
    realizes _ ((), transcript) (state, transcript) ⟨start, rfl⟩ _ _ model
  subst same
  exact ⟨after, kept, ran⟩

open Classical in
/-- **No leaf is fetched twice.** Let a store have all chunks of some content, each a run of bytes
that a word counts, and let an output take every write.  Then streaming the content fetches its root
and, for one piece after the other, the nodes below the root that the piece meets.  So every node is
fetched for as many pieces as it takes to cover its length, the root and each leaf once, and nothing
else is fetched. -/
theorem fetches_of_readTo {chunker : Chunker}
    (small : chunker.keySize * chunker.branches * chunker.branches < wordLimit) {content : Bytes}
    {root : Key} {chunks : Array Chunk} (split : chunker.chunksOf content = .ok (root, chunks))
    (counted : ∀ chunk ∈ chunks, ∀ data, chunk.data = some data → data.size < wordLimit)
    {store : Store σ} {kind : σ → Prop} (provides : store.Provides kind chunks) {sink : Sink σ}
    (takes : ∀ bytes state, kind state →
      ∃ after, (sink bytes).run state = (.ok true, after) ∧ kind after) :
    ∃ tree fetched, chunker.treeOf content = .ok tree ∧ chunker.nameOf tree.data = root ∧
      chunks = (tree.postorder.map chunker.chunkOf).toArray ∧
      fetched = tree.streamed (chunker.keySize * chunker.branches * chunker.branches) ∧
      (∀ state transcript, kind state → ∃ after, kind after ∧
        ((⟨chunker, store.transcribed⟩ : Archive _).readTo root fun bytes =>
            (sink bytes).within .fst).run (state, transcript) =
          (.ok content.size, after,
            transcript ++ fetched.map fun span => chunker.replyOf span.node)) ∧
      (tree.spans 0).Nodup ∧ (∀ span ∈ fetched, span ∈ tree.spans 0) ∧
      fetched.count ⟨0, tree⟩ = 1 ∧
      ∀ span ∈ tree.descendants,
        fetched.count span = (span.stop - span.start) ⌈/⌉
          (chunker.keySize * chunker.branches * chunker.branches) ∧
        (span.node.branches = [] → fetched.count span = 1) := by
  have single := Chunker.small_of_square small
  have positive := Chunker.chunkSize_pos single
  have wide := Chunker.window_pos positive 1
  have piece : chunker.pieceSize = chunker.window 1 := by
    rw [Chunker.pieceSize_eq small, Chunker.window_succ, Chunker.window_zero]
  obtain ⟨tree, treed, keyed, rfl, rfl⟩ := (Chunker.chunksOf_eq_ok_iff positive).mp split
  obtain ⟨shape, covered, rfl⟩ := Chunker.treeOf_eq_ok_iff.mp treed
  have reach := Chunker.le_window_succ_of_shapeOf covered
  have short : ∀ node ∈ (chunker.treeAt shape.depth content).preorder,
      node.data.size < wordLimit :=
    fun node member => counted _ (Chunker.chunkOf_mem_postorder member) node.data rfl
  rw [← Chunker.window_one single]
  refine ⟨_, _, treed, rfl, rfl, rfl, fun state transcript start => ?_,
    Chunker.nodup_spans positive shape.depth 0 content, fun span => Tree.mem_spans_of_mem_streamed,
    Chunker.count_root_streamed positive shape.depth content _, fun span member => ?_⟩
  · rw [← piece]
    exact run_readTo_of_provides positive covered keyed short (piece ▸ wide.ne') provides takes
      start transcript
  · obtain ⟨count, leaf⟩ := Chunker.count_streamed positive reach member
    have length : span.stop - span.start = span.node.size := Nat.add_sub_cancel_left _ _
    rw [count, length, ← branchCount_eq_ceilDiv wide]
    exact ⟨rfl, leaf⟩

/-- The chunks of the numbers from one to nine. -/
def nineChunks : Array Chunk :=
  #[⟨⟨#[14]⟩, some #[4, 0, 0, 0, 0, 0, 0, 0, 1, 2, 3, 4], 4⟩,
    ⟨⟨#[30]⟩, some #[4, 0, 0, 0, 0, 0, 0, 0, 5, 6, 7, 8], 4⟩,
    ⟨⟨#[52]⟩, some #[8, 0, 0, 0, 0, 0, 0, 0, 14, 30], 8⟩,
    ⟨⟨#[10]⟩, some #[1, 0, 0, 0, 0, 0, 0, 0, 9], 1⟩,
    ⟨⟨#[71]⟩, some #[9, 0, 0, 0, 0, 0, 0, 0, 52, 10], 9⟩]

/-- Nine bytes are three pieces, and the node over the first eight has something of two of them. -/
theorem fetches_of_readTo_nine_bytes :
    ∃ fetched : List Span,
      fetched.map (fun span => (span.start, span.stop)) =
        [(0, 9), (0, 8), (0, 4), (0, 8), (4, 8), (8, 9)] ∧
      ((⟨.tiny, (Store.answering (Answers.among nineChunks)).transcribed⟩ : Archive _).readTo
          ⟨#[71]⟩ fun _ => (pure true : Action Unit Bool).within .fst).run ((), []) =
        (.ok 9, (), fetched.map fun span => Chunker.tiny.replyOf span.node) := by
  have split : Chunker.tiny.chunksOf #[1, 2, 3, 4, 5, 6, 7, 8, 9] = .ok (⟨#[71]⟩, nineChunks) := by
    decide +kernel
  have covered : Chunker.tiny.shapeOf (#[1, 2, 3, 4, 5, 6, 7, 8, 9] : Bytes).size = .ok ⟨3, 16⟩ := by
    decide +kernel
  have counted : ∀ chunk ∈ nineChunks, ∀ data, chunk.data = some data → data.size < wordLimit := by
    have each : ∀ chunk ∈ nineChunks, ∀ data ∈ chunk.data, data.size < wordLimit := by
      decide
    exact each
  have provides : (Store.answering (Answers.among nineChunks) : Store Unit).Provides
      (fun _ => True) nineChunks :=
    Store.provides_answering_among (by decide +kernel)
  obtain ⟨tree, fetched, treed, -, -, rfl, reads, -⟩ :=
    fetches_of_readTo (by decide) split counted provides
      (fun _ state start => ⟨state, rfl, start⟩ : ∀ bytes state, True →
        ∃ after, ((fun _ => pure true : Sink Unit) bytes).run state = (.ok true, after) ∧ True)
  cases (Chunker.treeOf_eq_ok_iff.mpr ⟨_, covered, rfl⟩).symm.trans treed
  obtain ⟨after, -, ran⟩ := reads () [] trivial
  exact ⟨_, by decide +kernel, ran⟩

end Archive

end ChunkTree
