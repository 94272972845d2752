import ChunkTree.Archive
import ChunkTree.Proofs.Answers

/-!
# Reading all at once and in pieces

Content that is written out in pieces goes down its tree once for every piece.  Over a store that
always answers alike this finds the same first damage as one read of everything: whatever a piece
meets and the pieces before it do not starts behind them, and nodes start in the order in which they
stand (`Chunker.findSome?_meeting_add`).  So both readings end alike, and what has been written when
a fault shows is a prefix of the content made of whole pieces (`Archive.readTo_agrees`).
-/

namespace ChunkTree

variable {σ τ : Type}

/-- Let nothing that the first choice takes come after what only the second takes.  Then what is
found in both together is found in the first, or else in the second. -/
theorem findSome?_filter_or {α β : Type} {first second : α → Bool} {find : α → Option β}
    {items : List α} (ordered : items.Pairwise fun item later =>
      second item = true → first item = false → first later = false) :
    (items.filter fun item => first item || second item).findSome? find =
      ((items.filter first).findSome? find).or ((items.filter second).findSome? find) := by
  induction ordered with
  | nil => rfl
  | @cons item rest after _ ih =>
      cases inFirst : first item with
      | true =>
          cases found : find item with
          | some answer => simp [inFirst, found]
          | none =>
              cases inSecond : second item with
              | true => simp [inFirst, inSecond, found, ih]
              | false => simp [inFirst, inSecond, found, ih]
      | false =>
          cases inSecond : second item with
          | true =>
              have none : rest.filter first = [] := by
                rw [List.filter_eq_nil_iff]
                intro later member
                rw [after later member inSecond inFirst]
                exact Bool.false_ne_true
              rw [none, List.findSome?_nil, Option.none_or] at ih
              simp [List.findSome?_cons, inFirst, inSecond, none, ih]
          | false => simp [inFirst, inSecond, ih]

namespace Chunker

variable {chunker : Chunker}

/-- The first damage that a range meets is the first that a part at its start meets, or else the
first that the rest meets. -/
theorem findSome?_meeting_add {β : Type} (positive : 0 < chunker.chunkSize) (depth : Nat)
    {content : Bytes} {position count more : Nat} (nonempty : 0 < count)
    (inside : position + count + more ≤ content.size) (find : Tree → Option β) :
    (meeting (chunker.treeAt depth content) position (count + more)).findSome? find =
      ((meeting (chunker.treeAt depth content) position count).findSome? find).or
        ((meeting (chunker.treeAt depth content) (position + count) more).findSome? find) := by
  have bounds : ∀ span ∈ (chunker.treeAt depth content).descendants, span.start < span.stop :=
    fun span member => (bounds_of_mem_spansOf positive depth (by omega) member).2.1
  have sorted : (chunker.treeAt depth content).descendants.Pairwise (·.start ≤ ·.start) := by
    have all := sorted_spans positive depth 0 content
    rw [Tree.spans_eq, List.pairwise_cons] at all
    exact all.2
  have both : (chunker.treeAt depth content).descendants.filter
        (fun span => decide (span.Meets position (count + more))) =
      (chunker.treeAt depth content).descendants.filter (fun span =>
        decide (span.Meets position count) || decide (span.Meets (position + count) more)) := by
    apply List.filter_congr
    intro span member
    have := bounds span member
    rw [← Bool.decide_or, decide_eq_decide]
    simp only [Span.Meets]
    omega
  simp only [meeting, List.findSome?_map]
  rw [both]
  apply findSome?_filter_or
  apply sorted.imp_of_mem
  intro span later member _ order meets apart
  have := bounds span member
  rw [decide_eq_true_eq] at meets
  rw [decide_eq_false_iff_not] at apart ⊢
  simp only [Span.Meets] at meets apart ⊢
  omega

end Chunker

/-- The output that is the state, to which whatever is written is added. -/
def Sink.appending : Sink Bytes := fun bytes => do
  .update (· ++ bytes)
  return true

namespace Archive

section Related

variable {relates : ∀ α : Type, Action σ α → Action τ α → Prop}

theorem relates_copy (compatible : Action.Compatible relates) {part : Section σ}
    {other : Section τ} (related : Section.Relates relates part other) {sink : Sink σ}
    {otherSink : Sink τ} (sinks : ∀ bytes, relates _ (sink bytes) (otherSink bytes))
    (width pieces position : Nat) :
    relates _ (copy part sink width pieces position) (copy other otherSink width pieces position) := by
  induction pieces generalizing position with
  | zero => exact compatible.pure position
  | succ pieces ih =>
      rw [copy, copy, related.size_eq]
      refine compatible.bind (related.readAt compatible _ _) fun bytes => ?_
      refine compatible.bind (sinks bytes) fun accepted => ?_
      cases accepted with
      | true => exact ih _
      | false => exact compatible.throw _

variable {archive : Archive σ} {other : Archive τ}

theorem relates_openAt_of_fetch (compatible : Action.Compatible relates)
    (chunkers : archive.chunker = other.chunker)
    (fetches : ∀ key, relates _ (archive.chunker.fetch archive.store key)
      (other.chunker.fetch other.store key)) {α : Type}
    {next : Section σ → Action σ α} {otherNext : Section τ → Action τ α}
    (goes : ∀ part otherPart, Section.Relates relates part otherPart →
      relates α (next part) (otherNext otherPart)) (root : Key) :
    relates α (archive.openAt root >>= next) (other.openAt root >>= otherNext) := by
  simp only [openAt, Chunker.join, bind_assoc, pure_bind]
  rw [chunkers] at fetches ⊢
  refine compatible.bind (Chunker.relates_openRoot_of_fetch compatible fetches root) fun node => ?_
  exact goes _ _ (Chunker.relates_sectionOf_of_fetch compatible fetches node)

theorem relates_openAt (compatible : Action.Compatible relates)
    (chunkers : archive.chunker = other.chunker)
    (gets : ∀ key, relates _ (archive.store.get key) (other.store.get key)) {α : Type}
    {next : Section σ → Action σ α} {otherNext : Section τ → Action τ α}
    (goes : ∀ part otherPart, Section.Relates relates part otherPart →
      relates α (next part) (otherNext otherPart)) (root : Key) :
    relates α (archive.openAt root >>= next) (other.openAt root >>= otherNext) := by
  refine relates_openAt_of_fetch compatible chunkers (fun key => ?_) goes root
  rw [chunkers]
  exact Chunker.relates_fetch compatible gets key

theorem relates_read (compatible : Action.Compatible relates)
    (chunkers : archive.chunker = other.chunker)
    (gets : ∀ key, relates _ (archive.store.get key) (other.store.get key)) (root : Key) :
    relates _ (archive.read root) (other.read root) :=
  relates_openAt compatible chunkers gets (fun _ _ related => related.readAll compatible) root

theorem relates_writeOut (compatible : Action.Compatible relates)
    (chunkers : archive.chunker = other.chunker) {part : Section σ} {otherPart : Section τ}
    (related : Section.Relates relates part otherPart) {sink : Sink σ} {otherSink : Sink τ}
    (sinks : ∀ bytes, relates _ (sink bytes) (otherSink bytes)) :
    relates _ (archive.writeOut part sink) (other.writeOut otherPart otherSink) := by
  rw [writeOut, writeOut, pieceOf, pieceOf, chunkers, related.size_eq]
  exact relates_copy compatible related sinks _ _ _

theorem relates_readTo_of_fetch (compatible : Action.Compatible relates)
    (chunkers : archive.chunker = other.chunker)
    (fetches : ∀ key, relates _ (archive.chunker.fetch archive.store key)
      (other.chunker.fetch other.store key)) {sink : Sink σ} {otherSink : Sink τ}
    (sinks : ∀ bytes, relates _ (sink bytes) (otherSink bytes)) (root : Key) :
    relates _ (archive.readTo root sink) (other.readTo root otherSink) :=
  relates_openAt_of_fetch compatible chunkers fetches
    (fun _ _ related => relates_writeOut compatible chunkers related sinks) root

theorem relates_readTo (compatible : Action.Compatible relates)
    (chunkers : archive.chunker = other.chunker)
    (gets : ∀ key, relates _ (archive.store.get key) (other.store.get key)) {sink : Sink σ}
    {otherSink : Sink τ} (sinks : ∀ bytes, relates _ (sink bytes) (otherSink bytes)) (root : Key) :
    relates _ (archive.readTo root sink) (other.readTo root otherSink) :=
  relates_openAt compatible chunkers gets
    (fun _ _ related => relates_writeOut compatible chunkers related sinks) root

end Related

section Table

variable {chunker : Chunker} {answers : Answers} {content : Bytes} {shape : Shape}

/-- Fetching from the table leaves the state. -/
theorem foldl_get_answering (nodes : List Tree) (state : σ) :
    nodes.foldl (fun state node => (((Store.answering answers : Store σ).get
      (chunker.nameOf node.data)).run state).2) state = state := by
  induction nodes with
  | nil => rfl
  | cons node rest ih => exact ih

/-- Behind a piece as wide as all are, or the last, there is one piece less. -/
theorem branchCount_behind {width size pieces : Nat} (wide : 0 < width)
    (left : branchCount width size = pieces + 1) :
    0 < size ∧ branchCount width (size - min width size) = pieces := by
  have some : 0 < size := by
    by_contra empty
    rw [Nat.eq_zero_of_not_pos empty, branchCount_zero] at left
    cases left
  rw [branchCount_of_pos wide some, Nat.add_right_cancel_iff] at left
  refine ⟨some, ?_⟩
  rw [← left]
  congr 1
  omega

/-- A range of the content is read over the table as far as the first damage that it meets allows. -/
theorem run_readAt_answering (positive : 0 < chunker.chunkSize)
    (covered : chunker.shapeOf content.size = .ok shape)
    (honest : chunker.TrueTo answers (chunker.treeAt shape.depth content))
    (keyed : chunker.Keyed (chunker.treeAt shape.depth content)) {position count : Nat}
    (inside : position + count ≤ content.size) (state : σ) :
    ((chunker.sectionOf (Store.answering answers)
        ⟨(chunker.treeAt shape.depth content).data, content.size, shape⟩).readAt position count).run
        state =
      (answerUnless ((Chunker.meeting (chunker.treeAt shape.depth content) position
        count).findSome? (chunker.damage? answers)) (content.slice position count), state) := by
  rw [Chunker.run_readAt_sectionOf positive (Store.steady_answering answers) covered honest keyed
    inside, foldl_get_answering]

/-- What is left is written in pieces, as many as there are before the first damage that it meets. -/
theorem run_copy (positive : 0 < chunker.chunkSize)
    (covered : chunker.shapeOf content.size = .ok shape)
    (honest : chunker.TrueTo answers (chunker.treeAt shape.depth content))
    (keyed : chunker.Keyed (chunker.treeAt shape.depth content)) {width : Nat} (wide : 0 < width)
    {damage : Option Fault} {pieces position : Nat} (within : position ≤ content.size)
    (left : branchCount width (content.size - position) = pieces)
    (met : (Chunker.meeting (chunker.treeAt shape.depth content) position
      (content.size - position)).findSome? (chunker.damage? answers) = damage) (written : Bytes) :
    ∃ count,
      (copy (chunker.sectionOf (Store.answering answers)
        ⟨(chunker.treeAt shape.depth content).data, content.size, shape⟩) Sink.appending width
          pieces position).run written =
        (answerUnless damage content.size, written ++ content.slice position count) ∧
      (damage = none → position + count = content.size) ∧
      (damage ≠ none → position + count ≤ content.size ∧ width ∣ count) := by
  induction pieces generalizing position written with
  | zero =>
      have done : content.size - position ≤ 0 * width :=
        (branchCount_le_iff wide 0 _).mp (Nat.le_of_eq left)
      rw [Nat.zero_mul] at done
      rw [Nat.le_zero.mp done, Chunker.meeting_zero, List.findSome?_nil] at met
      subst met
      obtain rfl : position = content.size := by omega
      exact ⟨0, by simp [copy, answerUnless], fun _ => rfl, fun never => absurd rfl never⟩
  | succ pieces ih =>
      obtain ⟨nonempty, later⟩ := branchCount_behind wide left
      obtain ⟨count, count_eq⟩ : ∃ count, min width (content.size - position) = count := ⟨_, rfl⟩
      obtain ⟨more, more_eq⟩ : ∃ more, content.size - (position + count) = more := ⟨_, rfl⟩
      have some : 0 < count := by omega
      have inside : position + count ≤ content.size := by omega
      have whole : content.size - position = count + more := by omega
      rw [count_eq, Nat.sub_sub] at later
      rw [whole, Chunker.findSome?_meeting_add positive shape.depth some (by omega)] at met
      have read := run_readAt_answering positive covered honest keyed inside written
      rw [copy, Chunker.size_sectionOf, count_eq, Action.run_bind, read]
      cases here : (Chunker.meeting (chunker.treeAt shape.depth content) position
          count).findSome? (chunker.damage? answers) with
      | some fault =>
          rw [here, Option.some_or] at met
          subst met
          refine ⟨0, ?_, (fun never => by cases never), fun _ => ⟨within, width.dvd_zero⟩⟩
          rw [Bytes.slice_zero, Array.append_empty]
          rfl
      | none =>
          rw [here, Option.none_or] at met
          obtain ⟨rest, ran, all, part⟩ :=
            ih inside later (more_eq ▸ met) (written ++ content.slice position count)
          refine ⟨count + rest, ?_, ?_, ?_⟩
          · rw [← Bytes.slice_append_slice, ← Array.append_assoc]
            exact ran
          · rw [← Nat.add_assoc]
            exact all
          · intro damaged
            obtain ⟨reached, pieces⟩ := part damaged
            -- Behind a last piece that is short there is nothing left to be damaged.
            have behind : more ≠ 0 := by
              rintro rfl
              rw [Chunker.meeting_zero, List.findSome?_nil] at met
              exact damaged met.symm
            have full : count = width := by omega
            exact ⟨by omega, full ▸ Nat.dvd_add_self_left.mpr (full ▸ pieces)⟩

/-- The first damage that a reader of everything finds in a tree. -/
def firstDamage (chunker : Chunker) (answers : Answers) (tree : Tree) : Option Fault :=
  (chunker.damage? answers tree).or
    ((Chunker.meeting tree 0 tree.size).findSome? (chunker.damage? answers))

theorem run_read (positive : 0 < chunker.chunkSize)
    (covered : chunker.shapeOf content.size = .ok shape)
    (honest : chunker.TrueTo answers (chunker.treeAt shape.depth content))
    (keyed : chunker.Keyed (chunker.treeAt shape.depth content)) (written : Bytes) :
    ((⟨chunker, Store.answering answers⟩ : Archive Bytes).read
        (chunker.nameOf (chunker.treeAt shape.depth content).data)).run written =
      (answerUnless (firstDamage chunker answers (chunker.treeAt shape.depth content)) content,
        written) := by
  have table : (Store.answering answers : Store Bytes).Steady (fun _ => True) answers :=
    Store.steady_answering answers
  have reads := run_readAt_answering positive covered honest keyed (Nat.zero_add content.size).le
    written
  rw [Bytes.slice, Nat.zero_add, Array.extract_size] at reads
  simp only [read, openAt, Chunker.join, bind_assoc, pure_bind]
  rw [Action.run_bind, Chunker.run_openRoot positive table covered honest keyed, firstDamage,
    Chunker.size_treeAt]
  cases chunker.damage? answers (chunker.treeAt shape.depth content) with
  | some fault => rfl
  | none => exact reads

theorem run_readTo (positive : 0 < chunker.chunkSize) (streams : chunker.pieceSize ≠ 0)
    (covered : chunker.shapeOf content.size = .ok shape)
    (honest : chunker.TrueTo answers (chunker.treeAt shape.depth content))
    (keyed : chunker.Keyed (chunker.treeAt shape.depth content)) {damage : Option Fault}
    (met : firstDamage chunker answers (chunker.treeAt shape.depth content) = damage)
    (written : Bytes) :
    ∃ count,
      ((⟨chunker, Store.answering answers⟩ : Archive Bytes).readTo
          (chunker.nameOf (chunker.treeAt shape.depth content).data) Sink.appending).run written =
        (answerUnless damage content.size, written ++ content.slice 0 count) ∧
      (damage = none → count = content.size) ∧
      (damage ≠ none → count ≤ content.size ∧ min chunker.pieceSize content.size ∣ count) := by
  have table : (Store.answering answers : Store Bytes).Steady (fun _ => True) answers :=
    Store.steady_answering answers
  simp only [readTo, openAt, Chunker.join, bind_assoc, pure_bind]
  rw [Action.run_bind, Chunker.run_openRoot positive table covered honest keyed]
  rw [firstDamage, Chunker.size_treeAt] at met
  cases root : chunker.damage? answers (chunker.treeAt shape.depth content) with
  | some fault =>
      rw [root, Option.some_or] at met
      subst met
      refine ⟨0, ?_, (fun never => by cases never), fun _ => ⟨Nat.zero_le _, Nat.dvd_zero _⟩⟩
      rw [Bytes.slice_zero, Array.append_empty]
      rfl
  | none =>
      rw [root, Option.none_or] at met
      by_cases empty : content.size = 0
      · rw [empty, Chunker.meeting_zero, List.findSome?_nil] at met
        subst met
        have nothing : (⟨chunker, Store.answering answers⟩ : Archive Bytes).writeOut
            (chunker.sectionOf (Store.answering answers)
              ⟨(chunker.treeAt shape.depth content).data, content.size, shape⟩) Sink.appending =
            pure content.size := by
          simp [writeOut, pieceOf, Chunker.sectionOf, Section.whole, empty, copy]
        refine ⟨0, ?_, fun _ => empty.symm, fun never => absurd rfl never⟩
        rw [Bytes.slice_zero, Array.append_empty]
        exact congrArg (fun action : Action Bytes Nat => action.run written) nothing
      · obtain ⟨count, ran, all, part⟩ := run_copy positive covered honest keyed
          (by omega : 0 < min chunker.pieceSize content.size) (Nat.zero_le content.size) rfl met
          written
        rw [Nat.zero_add] at all part
        exact ⟨count, ran, all, part⟩

end Table

/-- As long as the state is of a kind, the store answers from a table and an output takes whatever is
written, behind what was written before; and getting chunks writes nothing. -/
structure Streams (archive : Archive σ) (sink : Sink σ) (kind : σ → Prop) (answers : Answers)
    (written : σ → Bytes) : Prop where
  steady : archive.store.Steady kind answers
  apart : ∀ key state, kind state → written ((archive.store.get key).run state).2 = written state
  takes : ∀ bytes state, kind state → ∃ after, (sink bytes).run state = (.ok true, after) ∧
    kind after ∧ written after = written state ++ bytes

variable {archive : Archive σ} {sink : Sink σ} {kind : σ → Prop} {answers : Answers}
  {written : σ → Bytes}

theorem Streams.predicts_get (streams : archive.Streams sink kind answers written) (key : Key) :
    Action.Predicts (fun seen state => kind state ∧ written state = seen)
      ((Store.answering answers).get key) (archive.store.get key) := by
  rintro _ state ⟨start, rfl⟩
  obtain ⟨same, kept⟩ := streams.steady key state start
  exact ⟨same, kept, streams.apart key state start⟩

theorem Streams.predicts_sink (streams : archive.Streams sink kind answers written)
    (bytes : Bytes) :
    Action.Predicts (fun seen state => kind state ∧ written state = seen)
      (Sink.appending bytes) (sink bytes) := by
  rintro _ state ⟨start, rfl⟩
  obtain ⟨after, ran, kept, added⟩ := streams.takes bytes state start
  rw [ran]
  exact ⟨rfl, kept, added⟩

theorem Streams.predicts_read (streams : archive.Streams sink kind answers written) (root : Key) :
    Action.Predicts (fun seen state => kind state ∧ written state = seen)
      ((⟨archive.chunker, Store.answering answers⟩ : Archive Bytes).read root)
      (archive.read root) := by
  apply relates_read (Action.Predicts.compatible _) _ streams.predicts_get
  rfl

theorem Streams.predicts_readTo (streams : archive.Streams sink kind answers written) (root : Key) :
    Action.Predicts (fun seen state => kind state ∧ written state = seen)
      ((⟨archive.chunker, Store.answering answers⟩ : Archive Bytes).readTo root Sink.appending)
      (archive.readTo root sink) := by
  apply relates_readTo (Action.Predicts.compatible _) _ streams.predicts_get streams.predicts_sink
  rfl

/-- **Streaming agrees with reading.** Let a store answer from a table that has no false data with
the digest of a chunk of some content, let pieces have some length, and let an output take every
write.  Then reading the content at once and streaming it both succeed, and what has been written is
the content, counted right; or both end with one fault, and what has been written is the content up to
the end of a piece. -/
theorem readTo_agrees (pieces : archive.chunker.pieceSize ≠ 0) {content : Bytes} {root : Key}
    {chunks : Array Chunk} (split : archive.chunker.chunksOf content = .ok (root, chunks))
    (honest : archive.chunker.TrueToChunks answers chunks)
    (streams : archive.Streams sink kind answers written) (before start : σ) (fine : kind before)
    (ready : kind start) :
    (∃ read streamed, (archive.read root).run before = (.ok content, read) ∧
      (archive.readTo root sink).run start = (.ok content.size, streamed) ∧
      written streamed = written start ++ content) ∨
    ∃ fault read streamed count, (archive.read root).run before = (.error fault, read) ∧
      (archive.readTo root sink).run start = (.error fault, streamed) ∧
      written streamed = written start ++ content.slice 0 count ∧ count ≤ content.size ∧
      min archive.chunker.pieceSize content.size ∣ count := by
  have positive : 0 < archive.chunker.chunkSize := by
    by_contra none
    have zero := Nat.eq_zero_of_not_pos none
    exact pieces (by rw [Chunker.pieceSize, zero, Nat.zero_mul, Nat.zero_mod])
  obtain ⟨tree, covered, keyed, rfl, rfl⟩ := (Chunker.chunksOf_eq_ok_iff positive).mp split
  obtain ⟨shape, fits, rfl⟩ := Chunker.treeOf_eq_ok_iff.mp covered
  have truthful := honest.trueTo
  obtain ⟨read, ranRead, -, -⟩ :=
    (streams.predicts_read _).run before ⟨fine, rfl⟩ (run_read positive fits truthful keyed _)
  cases damage : firstDamage archive.chunker answers
      (archive.chunker.treeAt shape.depth content) with
  | none =>
      left
      obtain ⟨count, model, all, -⟩ := run_readTo positive pieces fits truthful keyed damage
        (written start)
      obtain ⟨streamed, ran, -, out⟩ := (streams.predicts_readTo _).run start ⟨ready, rfl⟩ model
      rw [all rfl, Bytes.slice, Nat.zero_add, Array.extract_size] at out
      rw [damage] at ranRead
      exact ⟨read, streamed, ranRead, ran, out⟩
  | some fault =>
      right
      obtain ⟨count, model, -, part⟩ := run_readTo positive pieces fits truthful keyed damage
        (written start)
      obtain ⟨streamed, ran, -, out⟩ := (streams.predicts_readTo _).run start ⟨ready, rfl⟩ model
      rw [damage] at ranRead
      exact ⟨fault, read, streamed, count, ranRead, ran, out, part (by simp)⟩

theorem streams_appending (chunker : Chunker) (answers : Answers) :
    (⟨chunker, Store.answering answers⟩ : Archive Bytes).Streams Sink.appending (fun _ => True)
      answers id where
  steady := Store.steady_answering answers
  apart _ _ _ := rfl
  takes _ _ _ := ⟨_, rfl, trivial, rfl⟩

/-- An archive whose store has lost a leaf. -/
def tinyArchive : Archive Bytes := ⟨Chunker.tiny, Store.answering Chunker.tinyAnswers⟩

/-- The leaf that is lost ends both, the second after one piece. -/
theorem readTo_agrees_at_lost_leaf :
    ∃ fault, (tinyArchive.read Chunker.tinyRoot.key).run #[] = (.error fault, #[]) ∧
      (tinyArchive.readTo Chunker.tinyRoot.key Sink.appending).run #[] =
        (.error fault, #[1, 2, 3, 4]) ∧ fault = .chunkMissing ⟨#[6]⟩ := by
  have split : tinyArchive.chunker.chunksOf #[1, 2, 3, 4, 5] =
      .ok (Chunker.tinyRoot.key, (Chunker.tinyLeaves ++ [Chunker.tinyRoot]).toArray) := by
    decide +kernel
  have lost : (tinyArchive.read Chunker.tinyRoot.key).run #[] =
      (.error (.chunkMissing ⟨#[6]⟩), #[]) := by
    decide +kernel
  have piece : ((tinyArchive.readTo Chunker.tinyRoot.key Sink.appending).run #[]).2 =
      #[1, 2, 3, 4] := by
    decide +kernel
  have streams : tinyArchive.Streams Sink.appending (fun _ => True) Chunker.tinyAnswers id :=
    streams_appending _ _
  obtain ⟨read, streamed, never, -⟩ | ⟨fault, read, streamed, count, ran, copied, -⟩ :=
    readTo_agrees (by decide) split Chunker.trueToChunks_tinyAnswers streams #[] #[] trivial trivial
  · cases never.symm.trans lost
  · cases ran.symm.trans lost
    rw [copied] at piece
    exact ⟨_, lost, piece ▸ copied, rfl⟩

end Archive

end ChunkTree
