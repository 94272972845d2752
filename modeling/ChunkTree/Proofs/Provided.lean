import ChunkTree.Proofs.Branching
import ChunkTree.Proofs.Fetching

/-!
# Stores that have the chunks of some content

A store may have chunks beside those of some content, and its state may change while it is read.  As
long as it has these chunks (`Store.Provides`), whatever succeeds over the table of them succeeds over
the store in the same way (`Action.Realizes`, `Store.Provides.supplies`).  So the root key opens, and
every range of the content reads as what it is (`Chunker.exists_root_of_provides`).
-/

namespace ChunkTree

variable {σ τ α β : Type}

/-- Where the model succeeds, the action succeeds with the same answer, whatever state looks like what
the model starts from, and leaves a state that looks like what the model leaves. -/
def Action.Realizes (looks : τ → σ → Prop) (model : Action τ α) (action : Action σ α) : Prop :=
  ∀ seen state, looks seen state → ∀ answer left, model.run seen = (.ok answer, left) →
    ∃ after, action.run state = (.ok answer, after) ∧ looks left after

namespace Action

variable {looks : τ → σ → Prop}

theorem Realizes.compatible (looks : τ → σ → Prop) :
    Compatible fun α (model : Action τ α) (action : Action σ α) => Realizes looks model action where
  lift outcome := by
    intro seen state like answer left modelled
    cases modelled
    exact ⟨state, rfl, like⟩
  bind := by
    intro α β model action next other first second seen state like answer left modelled
    obtain ⟨middle, between, head, tail⟩ := run_bind_eq_ok_iff.mp modelled
    obtain ⟨after, ran, like⟩ := first seen state like middle between head
    obtain ⟨last, done, like⟩ := second middle between after like answer left tail
    exact ⟨last, run_bind_eq_ok_iff.mpr ⟨middle, after, ran, done⟩, like⟩

theorem Predicts.realizes {model : Action τ α} {action : Action σ α}
    (predicts : Predicts looks model action) : Realizes looks model action :=
  fun _ state like _ _ modelled => predicts.run state like modelled

end Action

/-- The table of some chunks, which has the first of them that is under a key. -/
def Answers.among (chunks : Array Chunk) : Answers :=
  fun key => .ok (chunks.toList.find? (·.key = key))

namespace Store

/-- Where the model has a chunk, the store has one with the same data. -/
def Supplies (looks : τ → σ → Prop) (model : Store τ) (store : Store σ) : Prop :=
  ∀ key seen state, looks seen state → ∀ chunk left,
    (model.get key).run seen = (.ok (some chunk), left) →
    ∃ held after, (store.get key).run state = (.ok (some held), after) ∧ held.data = chunk.data ∧
      looks left after

variable {looks : τ → σ → Prop} {model : Store τ} {store : Store σ} {kind : σ → Prop}
  {chunks : Array Chunk}

/-- Only the data of a chunk matters to a reader that fetches it. -/
theorem Supplies.realizes_fetch (supplies : Supplies looks model store) (chunker : Chunker)
    (key : Key) : Action.Realizes looks (chunker.fetch model key) (chunker.fetch store key) := by
  intro seen state like data left fetched
  obtain ⟨⟨chunk, got, holds⟩, named⟩ := Chunker.run_fetch_eq_ok_iff.mp fetched
  obtain ⟨held, after, answered, same, like⟩ := supplies key seen state like chunk left got
  exact ⟨after, Chunker.run_fetch_eq_ok_iff.mpr ⟨⟨held, answered, same.trans holds⟩, named⟩, like⟩

/-- What is asked for, and with what data it is answered, is the same in both transcripts. -/
theorem Supplies.transcribed (supplies : Supplies looks model store) :
    Supplies (fun (seen : τ × Transcript) (state : σ × Transcript) =>
      looks seen.1 state.1 ∧ state.2 = seen.2) model.transcribed store.transcribed := by
  rintro key ⟨seen, _⟩ ⟨state, transcript⟩ ⟨like, rfl⟩ chunk left got
  rw [run_get_transcribed] at got
  rcases answered : (model.get key).run seen with ⟨outcome, next⟩
  rw [answered] at got
  cases got
  obtain ⟨held, after, ran, same, like⟩ := supplies key seen state like chunk next answered
  refine ⟨held, (after, transcript ++ [.to key (.ok (some held))]), ?_, same, like, ?_⟩
  · rw [run_get_transcribed, ran]
  · simp only [Reply.to, same]

theorem mem_of_among {key : Key} {chunk : Chunk}
    (found : Answers.among chunks key = .ok (some chunk)) : chunk ∈ chunks ∧ chunk.key = key := by
  rw [Answers.among, Except.ok.injEq] at found
  have named := List.find?_some found
  exact ⟨Array.mem_toList_iff.mp (List.mem_of_find?_eq_some found), of_decide_eq_true named⟩

/-- The table of chunks whose keys differ has all of them. -/
theorem provides_answering_among
    (each : ∀ chunk ∈ chunks.toList, Answers.among chunks chunk.key = .ok (some chunk)) :
    (answering (Answers.among chunks) : Store σ).Provides (fun _ => True) chunks := by
  intro chunk member state start
  have found := each chunk (Array.mem_toList_iff.mpr member)
  exact ⟨chunk, state, congrArg (fun outcome => (outcome, state)) found, rfl, start⟩

/-- A store that has some chunks from every state has what their table has. -/
theorem supplies_of_provides (provides : ∀ seen, store.Provides (looks seen) chunks) :
    Supplies looks (answering (Answers.among chunks)) store := by
  intro key seen state start chunk left found
  obtain ⟨member, rfl⟩ := mem_of_among (congrArg Prod.fst found)
  obtain ⟨held, after, got, same, kept⟩ := provides seen chunk member state start
  have still : seen = left := congrArg Prod.snd found
  exact ⟨held, after, got, same, still ▸ kept⟩

theorem Provides.supplies (provides : store.Provides kind chunks) :
    Supplies (fun (_ : Unit) state => kind state) (answering (Answers.among chunks)) store :=
  supplies_of_provides fun _ => provides

/-- Chunks that one store has under one key have the same data. -/
theorem Provides.data_eq (provides : store.Provides kind chunks) {state : σ} (start : kind state)
    {one other : Chunk} (member : one ∈ chunks) (otherMember : other ∈ chunks)
    (keys : one.key = other.key) : one.data = other.data := by
  obtain ⟨held, after, got, same, -⟩ := provides one member state start
  obtain ⟨otherHeld, otherAfter, otherGot, otherSame, -⟩ := provides other otherMember state start
  rw [keys, otherGot] at got
  cases got
  exact same.symm.trans otherSame

/-- The table of the chunks of a tree has all of the tree, as long as some store can have it too. -/
theorem Provides.undamaged {chunker : Chunker} {tree : Tree}
    (provides : store.Provides kind (tree.postorder.map chunker.chunkOf).toArray) {state : σ}
    (start : kind state) : Archive.Undamaged chunker
      (Answers.among (tree.postorder.map chunker.chunkOf).toArray) tree := by
  intro node member
  have emitted : chunker.chunkOf node ∈ (tree.postorder.map chunker.chunkOf).toArray :=
    Chunker.chunkOf_mem_postorder member
  rcases found : (tree.postorder.map chunker.chunkOf).toArray.toList.find?
      (·.key = chunker.nameOf node.data) with _ | held
  · have never := List.find?_eq_none.mp found _ (Array.mem_toList_iff.mpr emitted)
    exact absurd (decide_eq_true rfl) never
  · have got : Answers.among (tree.postorder.map chunker.chunkOf).toArray
        (chunker.nameOf node.data) = .ok (some held) := congrArg Except.ok found
    obtain ⟨among, keys⟩ := mem_of_among got
    exact ⟨held, got, provides.data_eq start among emitted keys⟩

end Store

namespace Chunker

variable {chunker : Chunker}

section Empty

/-- Even without any chunk size, a shape covers no content. -/
theorem shapeOf_zero : chunker.shapeOf 0 = .ok ⟨0, chunker.chunkSize⟩ := by
  rw [shapeOf, Shape.cover, if_neg (Nat.not_lt_zero _)]

/-- Without any chunk size, no shape covers more than no content. -/
theorem chunkSize_pos_of_shapeOf {size : Nat} {shape : Shape}
    (covered : chunker.shapeOf size = .ok shape) (nonempty : 0 < size) : 0 < chunker.chunkSize := by
  by_contra zero
  have zero := Nat.eq_zero_of_not_pos zero
  rw [shapeOf, zero, Shape.cover, if_pos nonempty, if_neg (Nat.not_lt_zero _), Nat.zero_mul,
    if_neg (Nat.lt_irrefl 0)] at covered
  cases covered

/-- Content that is split has a shape that covers it. -/
theorem exists_shape_of_chunksOf {content : Bytes} {root : Key} {chunks : Array Chunk}
    (split : chunker.chunksOf content = .ok (root, chunks)) :
    ∃ shape, chunker.shapeOf content.size = .ok shape := by
  cases covered : chunker.treeOf content with
  | ok tree =>
      obtain ⟨shape, fits, -⟩ := treeOf_eq_ok_iff.mp covered
      exact ⟨shape, fits⟩
  | error fault =>
      simp only [chunksOf] at split
      rw [split_of_error (Section.holds_ofBytes content) covered, Action.run_throw] at split
      cases split

theorem split_empty (collect : Collector σ) :
    chunker.split (.ofBytes #[]) (some collect) = chunker.emit collect 0 #[] := by
  have size : (Section.ofBytes #[] : Section σ).size = 0 := rfl
  have whole : (Section.ofBytes #[] : Section σ).readAll = pure #[] :=
    (Section.holds_ofBytes #[]).readAll
  have leaf : chunker.splitAt collect 0 chunker.chunkSize (.ofBytes #[]) =
      chunker.emit collect 0 #[] := by
    rw [splitAt, whole, pure_bind, size]
  rw [split, size, shapeOf_zero, ← leaf]
  rfl

/-- No content is one leaf, which has nothing behind its header. -/
theorem leaf_of_empty {root : Key} {chunks : Array Chunk}
    (split : chunker.chunksOf #[] = .ok (root, chunks)) :
    chunker.keyOf (leafOf #[]).data = .ok root ∧ ⟨root, some (leafOf #[]).data, 0⟩ ∈ chunks := by
  simp only [chunksOf] at split
  rw [split_empty, emit, Action.run_bind, Action.run_lift] at split
  have data : Header.encode (UInt64.ofNat 0) ++ #[] = (leafOf #[]).data := rfl
  rw [data] at split
  cases named : chunker.keyOf (leafOf #[]).data with
  | error fault =>
      rw [named] at split
      cases split
  | ok key =>
      rw [named] at split
      cases split
      exact ⟨rfl, Array.mem_push_self⟩

/-- The one leaf makes a root. -/
theorem rootOf_empty (key : Key) :
    chunker.rootOf key (leafOf #[]).data =
      .ok ⟨(leafOf #[]).data, 0, ⟨0, chunker.chunkSize⟩⟩ := by
  refine rootOf_eq_ok_iff.mpr ⟨rfl, shapeOf_zero, ⟨0, ?_, rfl⟩, checkLength_eq_ok_iff.mpr ?_⟩
  · exact Header.decode_encode_append _ _
  · rw [Shape.normalize, Shape.settle, dataLength, if_pos rfl]
    rfl

end Empty

section Tree

variable {content : Bytes} {shape : Shape} (positive : 0 < chunker.chunkSize)
  (covered : chunker.shapeOf content.size = .ok shape)
  (keyed : chunker.Keyed (chunker.treeAt shape.depth content))
  (short : ∀ node ∈ (chunker.treeAt shape.depth content).preorder, node.data.size < wordLimit)
  {store : Store σ} {kind : σ → Prop}
  (provides : store.Provides kind
    ((chunker.treeAt shape.depth content).postorder.map chunker.chunkOf).toArray)
  {state : σ} (start : kind state)
include positive covered keyed short provides start

theorem run_openRoot_of_provides : ∃ after,
    (chunker.openRoot store (chunker.nameOf (chunker.treeAt shape.depth content).data)).run state =
      (.ok ⟨(chunker.treeAt shape.depth content).data, content.size, shape⟩, after) ∧
    kind after := by
  have whole := provides.undamaged start
  have model := run_openRoot positive (Store.steady_answering _) covered whole.trueTo keyed ()
  rw [Archive.damage?_of_undamaged whole short (Tree.mem_preorder_self _)] at model
  exact relates_openRoot_of_fetch (Action.Realizes.compatible _)
    (provides.supplies.realizes_fetch chunker) _ () state start _ _ model

theorem run_readAt_of_provides {position count : Nat} (inside : position + count ≤ content.size) :
    ∃ after, ((chunker.sectionOf store
        ⟨(chunker.treeAt shape.depth content).data, content.size, shape⟩).readAt position count).run
        state = (.ok (content.slice position count), after) ∧ kind after := by
  have whole := provides.undamaged start
  have model := Archive.run_readAt_answering positive covered whole.trueTo keyed inside ()
  rw [Archive.findSome?_meeting_of_undamaged positive whole short inside] at model
  have related := relates_sectionOf_of_fetch (Action.Realizes.compatible _)
    (provides.supplies.realizes_fetch chunker)
    ⟨(chunker.treeAt shape.depth content).data, content.size, shape⟩
  exact related.readAt (Action.Realizes.compatible _) position count () state start _ _ model

end Tree

/-- **Stored content reads as what it is.** Let a store have all chunks of some content, as long as its
state is of some kind, and let each of them be a run of bytes that a word counts.  Then the root key
opens, and every range of the content reads as that range. -/
theorem exists_root_of_provides {content : Bytes} {root : Key} {chunks : Array Chunk}
    (split : chunker.chunksOf content = .ok (root, chunks))
    (counted : ∀ chunk ∈ chunks, ∀ data, chunk.data = some data → data.size < wordLimit)
    {store : Store σ} {kind : σ → Prop} (provides : store.Provides kind chunks) :
    ∃ node : Root, node.size = content.size ∧ ∀ state, kind state →
      (∃ after, (chunker.openRoot store root).run state = (.ok node, after) ∧ kind after) ∧
      ∀ position count, position + count ≤ content.size → ∃ after,
        ((chunker.sectionOf store node).readAt position count).run state =
          (.ok (content.slice position count), after) ∧ kind after := by
  by_cases empty : content.size = 0
  · obtain rfl : content = #[] := Array.eq_empty_of_size_eq_zero empty
    obtain ⟨named, emitted⟩ := leaf_of_empty split
    refine ⟨⟨(leafOf #[]).data, 0, ⟨0, chunker.chunkSize⟩⟩, rfl, fun state start => ⟨?_, ?_⟩⟩
    · obtain ⟨held, after, got, same, kept⟩ := provides _ emitted state start
      have fetched : (chunker.fetch store root).run state = (.ok (leafOf #[]).data, after) :=
        run_fetch_eq_ok_iff.mpr ⟨⟨held, got, same⟩, named⟩
      refine ⟨after, ?_, kept⟩
      rw [openRoot, Action.run_bind, fetched]
      exact congrArg (fun outcome => (outcome, after)) (rootOf_empty root)
    · intro position count inside
      have inside : position + count ≤ 0 := inside
      obtain rfl : count = 0 := by omega
      rw [Section.readAt_of_le _ inside, if_pos rfl, Bytes.slice_zero]
      exact ⟨state, rfl, start⟩
  · obtain ⟨_, fits⟩ := exists_shape_of_chunksOf split
    have positive := chunkSize_pos_of_shapeOf fits (Nat.pos_of_ne_zero empty)
    obtain ⟨tree, treed, keyed, rfl, rfl⟩ := (chunksOf_eq_ok_iff positive).mp split
    obtain ⟨shape, covered, rfl⟩ := treeOf_eq_ok_iff.mp treed
    have short : ∀ node ∈ (chunker.treeAt shape.depth content).preorder,
        node.data.size < wordLimit :=
      fun node member => counted _ (chunkOf_mem_postorder member) node.data rfl
    refine ⟨⟨(chunker.treeAt shape.depth content).data, content.size, shape⟩, rfl,
      fun state start => ⟨?_, fun position count inside => ?_⟩⟩
    · exact run_openRoot_of_provides positive covered keyed short provides start
    · exact run_readAt_of_provides positive covered keyed short provides start inside

end Chunker

end ChunkTree
