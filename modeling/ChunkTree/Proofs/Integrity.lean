import ChunkTree.Proofs.Reading
import ChunkTree.Proofs.Transcript

/-!
# Reading from a store that may lie

A store that answers as it likes can only make a read fail, or hand the reader a collision: data
that it gave and data of a chunk of the tree that differ and have one digest (`Chunker.Collides`).
Short of that the store is true to the tree (`Chunker.trueUntil_transcribed`), so an open tree has
the length of its content, and a read of any range through any slices gives that range.
-/

namespace ChunkTree.Chunker

variable {σ : Type} (chunker : Chunker) {store : Store σ}

/-- A store gave data that differs from a chunk's and has the same digest. -/
def Collides (transcript : Transcript) (chunks : Array Chunk) : Prop :=
  ∃ reply ∈ transcript, ∃ chunk ∈ chunks, ∃ given made, reply.data = some given ∧
    chunk.data = some made ∧ given ≠ made ∧
    chunker.hasher.digest given = chunker.hasher.digest made

variable {chunker}

theorem Collides.append {transcript : Transcript} {chunks : Array Chunk}
    (collides : chunker.Collides transcript chunks) (more : Transcript) :
    chunker.Collides (transcript ++ more) chunks := by
  obtain ⟨reply, member, collision⟩ := collides
  exact ⟨reply, List.mem_append_left _ member, collision⟩

/-- Over its transcript, any store is true to a tree until it gives a collision. -/
theorem trueUntil_transcribed (store : Store σ) (tree : Tree) :
    chunker.TrueUntil store.transcribed (fun state =>
      chunker.Collides state.2 (tree.postorder.map chunker.chunkOf).toArray) tree where
  stays key := by
    rintro ⟨state, transcript⟩ collides
    exact collides.append _
  honest := by
    rintro node member ⟨state, transcript⟩ after chunk data got held digests
    rw [Store.run_get_transcribed] at got
    rcases answered : (store.get (chunker.nameOf node.data)).run state with ⟨outcome, next⟩
    rw [answered] at got
    cases got
    by_cases same : data = node.data
    · exact .inl same
    · right
      refine ⟨⟨chunker.nameOf node.data, some data⟩, ?_, chunker.chunkOf node,
        chunkOf_mem_postorder member, data, node.data, rfl, rfl, same, digests⟩
      rw [← held]
      exact List.mem_append_right _ List.mem_cons_self

/-- **Integrity of every partial read.** Whatever a store answers, a tree that opens under the root
key of some content has the length of that content, and a read of a range of any slice of it that
succeeds, in whatever state of the store, gives that range of the content; or else a reply of the
store and a chunk of the content are a collision of the hasher. -/
theorem read_eq_or_collides (small : chunker.keySize * chunker.branches < wordLimit)
    {content : Bytes} {root : Key} {chunks : Array Chunk}
    (split : chunker.chunksOf content = .ok (root, chunks)) {before opened : σ} {part : Section σ}
    (joined : (chunker.join store root).run before = (.ok part, opened)) :
    ∃ traced opening,
      (chunker.join store.transcribed root).run (before, []) = (.ok traced, opened, opening) ∧
      (part.size = content.size ∨ chunker.Collides opening chunks) ∧
      ∀ ranges view, part.cut ranges = .ok view → ∀ position count later bytes after,
        (view.readAt position count).run later = (.ok bytes, after) →
        ∃ tracedView transcript, traced.cut ranges = .ok tracedView ∧
          (tracedView.readAt position count).run (later, opening) =
            (.ok bytes, after, transcript) ∧
          ((Section.offset ranges + position + count ≤ content.size ∧
              bytes = content.slice (Section.offset ranges + position) count) ∨
            chunker.Collides transcript chunks) := by
  have positive := chunkSize_pos small
  obtain ⟨tree, covered, keyed, rfl, rfl⟩ := (chunksOf_eq_ok_iff positive).mp split
  obtain ⟨shape, fits, rfl⟩ := treeOf_eq_ok_iff.mp covered
  obtain ⟨node, opening, openedRoot, related⟩ := exists_transcribed_join joined
  have truthful : chunker.TrueUntil store.transcribed _ (chunker.treeAt shape.depth content) :=
    trueUntil_transcribed store _
  have known := (alike_openRoot positive fits truthful keyed).eq_or_bad openedRoot
  refine ⟨_, opening, run_join_eq_ok_iff.mpr ⟨node, openedRoot, rfl⟩, ?_, ?_⟩
  · rcases known with rfl | collides
    · exact .inl related.size_eq.symm
    · exact .inr collides
  · intro ranges view sliced position count later bytes after read
    obtain ⟨tracedView, cut, same⟩ := related.cut sliced
    obtain ⟨more, ran⟩ := (same.readAt Action.Records.compatible position count).run read opening
    refine ⟨tracedView, _, cut, ran, ?_⟩
    rcases known with rfl | collides
    · have inside := Section.le_of_run_readAt_eq_ok ran
      have within : Section.offset ranges + tracedView.size ≤ content.size :=
        (Section.eq_of_cut_eq_ok cut).2
      have reads := alike_readAt positive fits truthful keyed cut inside
      rcases reads.eq_or_bad ran with rfl | collides
      · exact .inl ⟨by omega, rfl⟩
      · exact .inr collides
    · exact .inr (collides.append more)

/-- A store gives a leaf with two bytes swapped, which their sum does not see: the read succeeds
with wrong bytes, and the two leaves are the collision. -/
theorem collides_of_swapped_leaf :
    ∃ part transcript,
      (tiny.join Store.scripted tinyRoot.key).run
          [tinyRoot, ⟨⟨#[14]⟩, some #[4, 0, 0, 0, 0, 0, 0, 0, 2, 1, 3, 4], 4⟩] =
        (.ok part, [⟨⟨#[14]⟩, some #[4, 0, 0, 0, 0, 0, 0, 0, 2, 1, 3, 4], 4⟩]) ∧
      (part.readAt 1 2).run [⟨⟨#[14]⟩, some #[4, 0, 0, 0, 0, 0, 0, 0, 2, 1, 3, 4], 4⟩] =
        (.ok #[1, 3], []) ∧
      tiny.Collides transcript (tinyLeaves ++ [tinyRoot]).toArray := by
  have split : tiny.chunksOf #[1, 2, 3, 4, 5] =
      .ok (tinyRoot.key, (tinyLeaves ++ [tinyRoot]).toArray) := by
    decide +kernel
  have opened : (tiny.openRoot Store.scripted tinyRoot.key).run
        [tinyRoot, ⟨⟨#[14]⟩, some #[4, 0, 0, 0, 0, 0, 0, 0, 2, 1, 3, 4], 4⟩] =
      (.ok ⟨#[5, 0, 0, 0, 0, 0, 0, 0, 14, 6], 5, ⟨2, 8⟩⟩,
        [⟨⟨#[14]⟩, some #[4, 0, 0, 0, 0, 0, 0, 0, 2, 1, 3, 4], 4⟩]) := by
    decide +kernel
  have joined := run_join_eq_ok_iff.mpr ⟨_, opened, rfl⟩
  have read : ((tiny.sectionOf Store.scripted
      ⟨#[5, 0, 0, 0, 0, 0, 0, 0, 14, 6], 5, ⟨2, 8⟩⟩).readAt 1 2).run
        [⟨⟨#[14]⟩, some #[4, 0, 0, 0, 0, 0, 0, 0, 2, 1, 3, 4], 4⟩] = (.ok #[1, 3], []) := by
    decide +kernel
  obtain ⟨traced, opening, -, -, reads⟩ := read_eq_or_collides (by decide) split joined
  obtain ⟨view, transcript, -, -, ⟨-, same⟩ | collides⟩ := reads [] _ rfl 1 2 _ _ _ read
  · exact absurd same (by decide)
  · exact ⟨_, transcript, joined, read, collides⟩

end ChunkTree.Chunker
