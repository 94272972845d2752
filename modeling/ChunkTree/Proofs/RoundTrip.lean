import ChunkTree.Archive
import ChunkTree.Proofs.Memory
import ChunkTree.Proofs.Reading

/-!
# Keeping content and reading it back

A store in memory that serves a tree meets every demand for a node of it, so a read there succeeds
with what it is known to answer (`Memory.Serves.run_readAt`).  Keeping content makes the store serve
its tree, if no key stands for two kinds of data, and later puts change nothing of that: the content
reads back, whole and in pieces (`Archive.Gives`).
-/

namespace ChunkTree

/-- The key reads as the content: all of it at once, and opened, when it has the length of the
content and, whatever is put after that, every range of every slice reads as that range. -/
structure Archive.Gives (archive : Archive Memory) (root : Key) (content : Bytes)
    (memory : Memory) : Prop where
  read : (archive.read root).run memory = (.ok content, memory)
  opened : ∃ part, (archive.openAt root).run memory = (.ok part, memory) ∧
    part.size = content.size ∧
    ∀ ranges view, part.cut ranges = .ok view → ∀ position count, position + count ≤ view.size →
      ∀ puts, (view.readAt position count).run (memory.putAll puts) =
        (.ok (content.slice (Section.offset ranges + position) count), memory.putAll puts)

variable {chunker : Chunker} {memory : Memory} {tree : Tree}

/-- As long as a store in memory serves a tree, it is true to it. -/
theorem Memory.trueUntil (tree : Tree) :
    chunker.TrueUntil Memory.store (fun memory => ¬ memory.Serves chunker tree) tree where
  stays _ := fun _ start => start
  honest := by
    intro node member before after chunk data got held digests
    by_cases serves : before.Serves chunker tree
    · obtain ⟨stored, bound, holds⟩ := serves node member
      rw [Memory.run_get, bound] at got
      cases got
      rw [held, Option.some.injEq] at holds
      exact .inl holds
    · have same : before = after := congrArg Prod.snd got
      exact .inr (same ▸ serves)

namespace Memory.Serves

theorem run_demand (serves : memory.Serves chunker tree) (keyed : chunker.Keyed tree)
    (short : ∀ node ∈ tree.preorder, node.data.size < wordLimit) {node : Tree}
    (member : node ∈ tree.preorder) :
    (chunker.demand Memory.store node).run memory = (.ok (), memory) := by
  obtain ⟨held, bound, data⟩ := serves node member
  have fetched : (chunker.fetch Memory.store (chunker.nameOf node.data)).run memory =
      (.ok node.data, memory) :=
    Chunker.run_fetch_eq_ok_iff.mpr ⟨⟨held, by rw [Memory.run_get, bound], data⟩,
      chunker.keyOf_eq_ok_iff.mpr ⟨keyed node member, rfl⟩⟩
  rw [Chunker.demand, Action.run_bind, fetched, Chunker.countable, if_pos (short node member)]
  rfl

theorem run_forM_demand (serves : memory.Serves chunker tree) (keyed : chunker.Keyed tree)
    (short : ∀ node ∈ tree.preorder, node.data.size < wordLimit) {nodes : List Tree}
    (below : ∀ node ∈ nodes, node ∈ tree.preorder) :
    (forM nodes (chunker.demand Memory.store) : Action Memory Unit).run memory =
      (.ok (), memory) := by
  induction nodes with
  | nil => rfl
  | cons node rest ih =>
      rw [List.forM_cons, Action.run_bind,
        serves.run_demand keyed short (below node List.mem_cons_self)]
      exact ih fun other member => below other (List.mem_cons_of_mem _ member)

section Content

variable {content : Bytes} {shape : Shape}

/-- A tree that is served opens. -/
theorem run_openRoot (positive : 0 < chunker.chunkSize)
    (covered : chunker.shapeOf content.size = .ok shape)
    (serves : memory.Serves chunker (chunker.treeAt shape.depth content))
    (keyed : chunker.Keyed (chunker.treeAt shape.depth content))
    (short : ∀ node ∈ (chunker.treeAt shape.depth content).preorder, node.data.size < wordLimit) :
    (chunker.openRoot Memory.store
        (chunker.nameOf (chunker.treeAt shape.depth content).data)).run memory =
      (.ok ⟨(chunker.treeAt shape.depth content).data, content.size, shape⟩, memory) := by
  rw [(Chunker.alike_openRoot positive covered (Memory.trueUntil _) keyed).run_eq
    (Chunker.keeps_openRoot (fun _ _ start => start) _) serves, Action.run_bind,
    serves.run_demand keyed short (Tree.mem_preorder_self _)]
  rfl

/-- A range of any slice of a tree that is served reads as that range of the content. -/
theorem run_readAt (positive : 0 < chunker.chunkSize)
    (covered : chunker.shapeOf content.size = .ok shape)
    (serves : memory.Serves chunker (chunker.treeAt shape.depth content))
    (keyed : chunker.Keyed (chunker.treeAt shape.depth content))
    (short : ∀ node ∈ (chunker.treeAt shape.depth content).preorder, node.data.size < wordLimit)
    {ranges : List (Nat × Nat)} {view : Section Memory} {position count : Nat}
    (sliced : (chunker.sectionOf Memory.store
      ⟨(chunker.treeAt shape.depth content).data, content.size, shape⟩).cut ranges = .ok view)
    (inside : position + count ≤ view.size) :
    (view.readAt position count).run memory =
      (.ok (content.slice (Section.offset ranges + position) count), memory) := by
  have within : Section.offset ranges + view.size ≤ content.size :=
    (Section.eq_of_cut_eq_ok sliced).2
  have below : ∀ node ∈ chunker.asks shape.depth content (Section.offset ranges + position) count,
      node ∈ (chunker.treeAt shape.depth content).preorder := by
    intro node asked
    rw [Chunker.asks] at asked
    by_cases empty : count = 0
    · rw [if_pos empty] at asked
      exact absurd asked List.not_mem_nil
    · rw [if_neg empty] at asked
      exact Chunker.mem_preorder_of_mem_visits positive _ (Nat.pos_of_ne_zero empty) (by omega)
        asked
  rw [(Chunker.alike_readAt positive covered (Memory.trueUntil _) keyed sliced inside).run_eq
    (Chunker.keeps_readAt (fun _ _ start => start) sliced _ _) serves, Action.run_bind,
    serves.run_forM_demand keyed short below]
  rfl

/-- The key of a tree that is served gives its content. -/
theorem gives (positive : 0 < chunker.chunkSize)
    (covered : chunker.shapeOf content.size = .ok shape)
    (serves : memory.Serves chunker (chunker.treeAt shape.depth content))
    (keyed : chunker.Keyed (chunker.treeAt shape.depth content))
    (short : ∀ node ∈ (chunker.treeAt shape.depth content).preorder, node.data.size < wordLimit) :
    (⟨chunker, Memory.store⟩ : Archive Memory).Gives
      (chunker.nameOf (chunker.treeAt shape.depth content).data) content memory := by
  have opened : (chunker.join Memory.store
      (chunker.nameOf (chunker.treeAt shape.depth content).data)).run memory =
        (.ok (chunker.sectionOf Memory.store
          ⟨(chunker.treeAt shape.depth content).data, content.size, shape⟩), memory) :=
    Chunker.run_join_eq_ok_iff.mpr ⟨_, run_openRoot positive covered serves keyed short, rfl⟩
  constructor
  · have whole : ((chunker.sectionOf Memory.store
          ⟨(chunker.treeAt shape.depth content).data, content.size, shape⟩).cut []) = .ok _ :=
      rfl
    have all := run_readAt positive covered serves keyed short whole (Nat.zero_add _).le
    have content_eq : content.slice (Section.offset [] + 0) content.size = content := by
      rw [Bytes.slice]
      exact Array.extract_eq_self_of_le (Nat.le_add_left _ _)
    rw [Archive.read, Archive.openAt, Action.run_bind, opened]
    exact all.trans (congrArg (fun bytes => (Except.ok bytes, memory)) content_eq)
  · refine ⟨_, opened, rfl, fun ranges view sliced position count inside puts => ?_⟩
    exact run_readAt positive covered (serves.of_extends (Memory.extends_putAll puts memory)) keyed
      short sliced inside

end Content

end Memory.Serves

namespace Chunker

/-- A chunk of some content is no longer than a header and all of the content.  So its length fits
in a word whenever there is room for a header beside the content. -/
theorem size_le_of_mem_chunks (small : chunker.keySize * chunker.branches < wordLimit)
    {content : Bytes} {root : Key} {chunks : Array Chunk}
    (split : chunker.chunksOf content = .ok (root, chunks)) {chunk : Chunk}
    (member : chunk ∈ chunks) {data : Bytes} (holds : chunk.data = some data) :
    data.size ≤ Header.length + content.size := by
  obtain ⟨tree, covered, keyed, -, rfl⟩ := (chunksOf_eq_ok_iff (chunkSize_pos small)).mp split
  obtain ⟨shape, fits, rfl⟩ := treeOf_eq_ok_iff.mp covered
  obtain ⟨node, inside, rfl⟩ := List.mem_map.mp (List.mem_toArray.mp member)
  cases holds
  exact size_data_le small shape.depth (le_window_succ_of_shapeOf fits) keyed
    (Tree.mem_postorder.mp inside)

/-- **Decode undoes encode.** Let a hasher keep to its digest length, and let a tree cover some
content.  If every chunk of the content is a run of bytes that a word counts, as all that fit in
memory are, no two of them have one key and different data, and the store has no other data under
any of their keys, then keeping the content answers with the root key, and from then on, whatever
else is put, the root key gives the content. -/
theorem gives_of_keepBytes (small : chunker.keySize * chunker.branches < wordLimit)
    (honest : chunker.hasher.Honest) {content : Bytes} {shape : Shape}
    (covered : chunker.shapeOf content.size = .ok shape) :
    ∃ root chunks, chunker.chunksOf content = .ok (root, chunks) ∧
      ∀ memory : Memory,
        (∀ chunk ∈ chunks, ∀ data, chunk.data = some data → data.size < wordLimit) →
        (∀ one ∈ chunks, ∀ other ∈ chunks, one.key = other.key → one.data = other.data) →
        (∀ chunk ∈ chunks, ∀ held, memory[chunk.key]? = some held → held.data = chunk.data) →
        ∃ kept,
          ((⟨chunker, Memory.store⟩ : Archive Memory).keepBytes content).run memory =
            (.ok root, kept) ∧
          ∀ puts, (⟨chunker, Memory.store⟩ : Archive Memory).Gives root content
            (kept.putAll puts) := by
  have positive := chunkSize_pos small
  have keyed : chunker.Keyed (chunker.treeAt shape.depth content) :=
    fun node _ => honest node.data
  have tree : chunker.treeOf content = .ok (chunker.treeAt shape.depth content) :=
    treeOf_eq_ok_iff.mpr ⟨shape, covered, rfl⟩
  refine ⟨_, _, (chunksOf_eq_ok_iff positive).mpr ⟨_, tree, keyed, rfl, rfl⟩, ?_⟩
  intro memory counted distinct free
  -- What is said of chunks is said of the nodes that they are the chunks of.
  have chunk {node : Tree} (member : node ∈ (chunker.treeAt shape.depth content).preorder) :
      chunker.chunkOf node ∈
        ((chunker.treeAt shape.depth content).postorder.map chunker.chunkOf).toArray :=
    chunkOf_mem_postorder member
  have short : ∀ node ∈ (chunker.treeAt shape.depth content).preorder,
      node.data.size < wordLimit :=
    fun node member => counted _ (chunk member) node.data rfl
  have long : ∀ node ∈ (chunker.treeAt shape.depth content).postorder,
      (chunker.hasher.digest node.data).size = chunker.keySize :=
    fun node member => keyed node (Tree.mem_postorder.mp member)
  have nodesDistinct : ∀ node ∈ (chunker.treeAt shape.depth content).postorder,
      ∀ other ∈ (chunker.treeAt shape.depth content).postorder,
        chunker.nameOf node.data = chunker.nameOf other.data → node.data = other.data := by
    intro node member other otherMember same
    exact Option.some.inj (distinct _ (chunk (Tree.mem_postorder.mp member)) _
      (chunk (Tree.mem_postorder.mp otherMember)) same)
  have agrees : memory.Agrees chunker (chunker.treeAt shape.depth content).postorder := by
    intro node member held bound
    exact free _ (chunk (Tree.mem_postorder.mp member)) held bound
  obtain ⟨kept, ran, -, bound⟩ := Memory.run_forM_deliver long nodesDistinct agrees
  have serves : kept.Serves chunker (chunker.treeAt shape.depth content) :=
    fun node member => bound node (Tree.mem_postorder.mpr member)
  refine ⟨kept, ?_, fun puts => ?_⟩
  · rw [Archive.keepBytes, Archive.keep, split_eq positive (Section.holds_ofBytes content) tree,
      Action.run_bind]
    simp only [Memory.store, ran]
    rfl
  · exact Memory.Serves.gives positive covered
      (serves.of_extends (Memory.extends_putAll puts kept)) keyed short

/-- Five bytes are kept in an empty store, and read back. -/
theorem gives_of_keepBytes_five_bytes :
    ∃ kept,
      ((⟨tiny, Memory.store⟩ : Archive Memory).keepBytes #[1, 2, 3, 4, 5]).run ∅ =
        (.ok tinyRoot.key, kept) ∧
      (⟨tiny, Memory.store⟩ : Archive Memory).Gives tinyRoot.key #[1, 2, 3, 4, 5] kept := by
  have known : tiny.chunksOf #[1, 2, 3, 4, 5] =
      .ok (tinyRoot.key, (tinyLeaves ++ [tinyRoot]).toArray) := by
    decide +kernel
  have covered : tiny.shapeOf (#[1, 2, 3, 4, 5] : Bytes).size = .ok ⟨2, 8⟩ := by
    decide +kernel
  obtain ⟨root, chunks, split, keeps⟩ := gives_of_keepBytes (by decide) (fun _ => rfl) covered
  rw [known, Except.ok.injEq, Prod.mk.injEq] at split
  obtain ⟨rfl, rfl⟩ := split
  obtain ⟨kept, ran, gives⟩ := keeps ∅ (fun chunk member data holds => Nat.lt_of_le_of_lt
    (size_le_of_mem_chunks (by decide) known member holds) (by decide)) (by decide +kernel)
    (by simp)
  exact ⟨kept, ran, gives []⟩

end Chunker

end ChunkTree
