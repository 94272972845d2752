import ChunkTree.Proofs.Answers

/-!
# What a read fetches, and the first damage

Opening a tree fetches its root and nothing else.  A read of a range then fetches the nodes below the
root whose spans have something of the range, from left to right and each before its branches, up to
the first that is damaged, and fails with the damage to that one; so damage that the range does not
meet never shows (`Chunker.readAt_up_to_damage`).
-/

namespace ChunkTree.Chunker

variable {σ : Type} (chunker : Chunker) (answers : Answers)

/-- The replies of a table to the keys of nodes. -/
def repliesTo (nodes : List Tree) : Transcript :=
  nodes.map fun node => .to (chunker.nameOf node.data) (answers (chunker.nameOf node.data))

/-- The nodes up to the first that is damaged, and that one. -/
def upToDamage (nodes : List Tree) : List Tree :=
  upTo (fun node => (chunker.damage? answers node).isSome) nodes

variable {chunker answers}

/-- Fetching nodes from a table adds the replies for them to the transcript. -/
theorem foldl_get_transcribed (nodes : List Tree) (transcript : Transcript) :
    nodes.foldl (fun state node =>
        (((Store.answering answers : Store Unit).transcribed.get
          (chunker.nameOf node.data)).run state).2) ((), transcript) =
      ((), transcript ++ chunker.repliesTo answers nodes) := by
  induction nodes generalizing transcript with
  | nil => simp [repliesTo]
  | cons node rest ih =>
      rw [List.foldl_cons, Store.run_get_transcribed]
      refine (ih _).trans ?_
      rw [List.append_assoc]
      rfl

section Content

variable {content : Bytes} {shape : Shape}

theorem run_openRoot_transcribed (positive : 0 < chunker.chunkSize)
    (covered : chunker.shapeOf content.size = .ok shape)
    (honest : chunker.TrueTo answers (chunker.treeAt shape.depth content))
    (keyed : chunker.Keyed (chunker.treeAt shape.depth content)) (transcript : Transcript) :
    (chunker.openRoot (Store.answering answers : Store Unit).transcribed
        (chunker.nameOf (chunker.treeAt shape.depth content).data)).run ((), transcript) =
      (answerUnless (chunker.damage? answers (chunker.treeAt shape.depth content))
          ⟨(chunker.treeAt shape.depth content).data, content.size, shape⟩,
        (), transcript ++ chunker.repliesTo answers [chunker.treeAt shape.depth content]) := by
  have table : (Store.answering answers : Store Unit).transcribed.Steady (fun _ => True) answers :=
    (Store.steady_answering answers).transcribed
  rw [run_openRoot positive table covered honest keyed, Store.run_get_transcribed]
  rfl

theorem run_readAt_transcribed (positive : 0 < chunker.chunkSize)
    (covered : chunker.shapeOf content.size = .ok shape)
    (honest : chunker.TrueTo answers (chunker.treeAt shape.depth content))
    (keyed : chunker.Keyed (chunker.treeAt shape.depth content)) {ranges : List (Nat × Nat)}
    {view : Section (Unit × Transcript)} {position count : Nat}
    (sliced : (chunker.sectionOf (Store.answering answers).transcribed
      ⟨(chunker.treeAt shape.depth content).data, content.size, shape⟩).cut ranges = .ok view)
    (inside : position + count ≤ view.size) (transcript : Transcript) :
    (view.readAt position count).run ((), transcript) =
      (answerUnless
        ((meeting (chunker.treeAt shape.depth content) (Section.offset ranges + position)
          count).findSome? (chunker.damage? answers))
        (content.slice (Section.offset ranges + position) count),
      (), transcript ++ chunker.repliesTo answers (chunker.upToDamage answers
        (meeting (chunker.treeAt shape.depth content) (Section.offset ranges + position)
          count))) := by
  have table : (Store.answering answers : Store Unit).transcribed.Steady (fun _ => True) answers :=
    (Store.steady_answering answers).transcribed
  rw [run_readAt positive table covered honest keyed sliced inside, foldl_get_transcribed,
    upToDamage]

end Content

/-- **Lazy reads.** Let a store answer from a table that has no false data with the digest of a chunk
of some content.  Opening the content's root key asks for the root alone, and ends with the damage to
it, if there is any.  After that, whenever a range of any slice is read, the store is asked for the
nodes below the root whose spans meet the range, each before its branches, up to the first that is
damaged; the read ends with that damage, and with the range of the content if there is none.  An
empty range meets nothing. -/
theorem readAt_up_to_damage (small : chunker.keySize * chunker.branches < wordLimit)
    {content : Bytes} {root : Key} {chunks : Array Chunk}
    (split : chunker.chunksOf content = .ok (root, chunks)) {store : Store σ} {kind : σ → Prop}
    (steady : store.Steady kind answers) (honest : chunker.TrueToChunks answers chunks) :
    ∃ tree, chunker.treeOf content = .ok tree ∧ chunker.nameOf tree.data = root ∧
      chunks = (tree.postorder.map chunker.chunkOf).toArray ∧
      (∀ position, meeting tree position 0 = []) ∧
      ∀ before, kind before → ∀ transcript, ∃ outcome opened,
        (chunker.join store.transcribed root).run (before, transcript) =
          (outcome, opened, transcript ++ chunker.repliesTo answers [tree]) ∧ kind opened ∧
        (∀ fault, chunker.damage? answers tree = some fault → outcome = .error fault) ∧
        (chunker.damage? answers tree = none → ∃ part, outcome = .ok part ∧
          part.size = content.size ∧
          ∀ ranges view, part.cut ranges = .ok view →
            ∀ position count, position + count ≤ view.size →
            ∀ state, kind state → ∀ transcript, ∃ after, kind after ∧
              (view.readAt position count).run (state, transcript) =
                (answerUnless
                  ((meeting tree (Section.offset ranges + position) count).findSome?
                    (chunker.damage? answers))
                  (content.slice (Section.offset ranges + position) count),
                after, transcript ++ chunker.repliesTo answers (chunker.upToDamage answers
                  (meeting tree (Section.offset ranges + position) count)))) := by
  have positive := chunkSize_pos small
  obtain ⟨tree, covered, keyed, rfl, rfl⟩ := (chunksOf_eq_ok_iff positive).mp split
  obtain ⟨shape, fits, rfl⟩ := treeOf_eq_ok_iff.mp covered
  have truthful := honest.trueTo
  have compatible := Action.Predicts.compatible
    fun (seen : Unit × Transcript) (state : σ × Transcript) => kind state.1 ∧ state.2 = seen.2
  refine ⟨_, covered, rfl, rfl, meeting_zero _, fun before start transcript => ?_⟩
  obtain ⟨⟨opened, log⟩, ran, good, same⟩ :=
    (relates_openRoot compatible steady.predicts _).run (before, transcript)
      ⟨start, rfl⟩ (run_openRoot_transcribed positive fits truthful keyed transcript)
  subst same
  rw [join, Action.run_bind, ran]
  cases chunker.damage? answers (chunker.treeAt shape.depth content) with
  | some fault =>
      refine ⟨_, opened, rfl, good, ?_, ?_⟩
      · intro other same
        cases same
        rfl
      · intro never
        cases never
  | none =>
      refine ⟨_, opened, rfl, good, ?_, fun _ => ⟨_, rfl, rfl, ?_⟩⟩
      · intro fault never
        cases never
      intro ranges view sliced position count inside state fine transcript
      obtain ⟨model, cut, related⟩ :=
        (relates_sectionOf compatible steady.predicts _).cut sliced
      have reads := run_readAt_transcribed positive fits truthful keyed cut
        (related.size_eq ▸ inside) transcript
      obtain ⟨⟨after, log⟩, ran, kept, same⟩ :=
        (related.readAt compatible position count).run (state, transcript) ⟨fine, rfl⟩ reads
      subst same
      exact ⟨after, kept, ran⟩

/-- The leaf that is lost ends a read that meets it, and no other. -/
theorem readAt_up_to_lost_leaf :
    ∃ part, (tiny.join (Store.answering tinyAnswers).transcribed tinyRoot.key).run ((), []) =
        (.ok part, (), [⟨⟨#[25]⟩, tinyRoot.data⟩]) ∧
      (part.readAt 1 3).run ((), []) = (.ok #[2, 3, 4], (),
        [⟨⟨#[14]⟩, some #[4, 0, 0, 0, 0, 0, 0, 0, 1, 2, 3, 4]⟩]) ∧
      (part.readAt 1 4).run ((), []) = (.error (.chunkMissing ⟨#[6]⟩), (),
        [⟨⟨#[14]⟩, some #[4, 0, 0, 0, 0, 0, 0, 0, 1, 2, 3, 4]⟩, ⟨⟨#[6]⟩, none⟩]) := by
  have split : tiny.chunksOf #[1, 2, 3, 4, 5] =
      .ok (tinyRoot.key, (tinyLeaves ++ [tinyRoot]).toArray) := by
    decide +kernel
  have covered : tiny.shapeOf (#[1, 2, 3, 4, 5] : Bytes).size = .ok ⟨2, 8⟩ := by
    decide +kernel
  have table : (Store.answering tinyAnswers : Store Unit).Steady (fun _ => True) tinyAnswers :=
    Store.steady_answering tinyAnswers
  obtain ⟨tree, tree_eq, -, -, -, reads⟩ := readAt_up_to_damage (by decide) split table
    trueToChunks_tinyAnswers
  cases (treeOf_eq_ok_iff.mpr ⟨_, covered, rfl⟩).symm.trans tree_eq
  obtain ⟨outcome, opened, joined, -, -, opens⟩ := reads () trivial []
  obtain ⟨part, rfl, size, reads⟩ := opens (by decide +kernel)
  refine ⟨part, joined, ?_, ?_⟩
  · obtain ⟨after, -, ran⟩ := reads [] part rfl 1 3 (by rw [size]; decide) () trivial []
    exact ran
  · obtain ⟨after, -, ran⟩ := reads [] part rfl 1 4 (by rw [size]; decide) () trivial []
    exact ran

end ChunkTree.Chunker
