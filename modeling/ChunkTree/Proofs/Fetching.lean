import ChunkTree.Allowance
import ChunkTree.Proofs.Streaming

/-!
# Reading from tables that have all of a tree

A table that has all nodes of the tree over some content gives the content: its root opens, no range
meets anything wrong, and reading it out writes the content (`Archive.run_readToAllowed_of_undamaged`).
An output that takes no more than the content is enough for that
(`Archive.run_readToAllowed_upTo_of_undamaged`).  What is read from related stores is written alike
(`Archive.relates_readToAllowed_of_fetch`).
-/

namespace ChunkTree

variable {σ τ : Type}

namespace Allowance

theorem check_of_le {size most : Nat} (fits : size ≤ most) :
    (check (some most) size : Action σ Unit) = pure () :=
  if_pos fits

/-- A check is one outcome, whatever the state. -/
theorem check_eq_lift (allowance : Allowance) (size : Nat) :
    ∃ outcome, ∀ state : Type, (allowance.check size : Action state Unit) = .lift outcome := by
  cases allowance with
  | none => exact ⟨.ok (), fun _ => rfl⟩
  | some most =>
      by_cases fits : size ≤ most
      · exact ⟨.ok (), fun _ => if_pos fits⟩
      · by_cases counted : size ≤ longestRun
        · exact ⟨.error .memoryExhausted, fun _ => (if_neg fits).trans (if_pos counted)⟩
        · exact ⟨.error .runTooLong, fun _ => (if_neg fits).trans (if_neg counted)⟩

end Allowance

/-- The output that is the state, as long as it becomes no longer than this. -/
def Sink.upTo (limit : Nat) : Sink Bytes := fun bytes => .of fun written =>
  if written.size + bytes.size ≤ limit then (.ok true, written ++ bytes) else (.error .foreign, written)

theorem Sink.alike_upTo (limit : Nat) (bytes : Bytes) :
    Action.AlikeUntil (fun written : Bytes => limit < written.size) (Sink.appending bytes)
        (Sink.upTo limit bytes) ∧
      Action.Keeps (fun written : Bytes => limit < written.size) (Sink.appending bytes) := by
  have ran (written : Bytes) : (Sink.appending bytes).run written = (.ok true, written ++ bytes) := rfl
  refine ⟨fun written => ?_, fun written long => ?_⟩
  · rw [ran, Sink.upTo, Action.run_of]
    simp only [Array.size_append]
    by_cases fits : written.size + bytes.size ≤ limit
    · exact .inr (if_pos fits).symm
    · exact .inl (Nat.lt_of_not_le fits)
  · rw [ran]
    simp only [Array.size_append]
    exact Nat.lt_of_lt_of_le long (Nat.le_add_right _ _)

namespace Archive

section Related

variable {relates : ∀ α : Type, Action σ α → Action τ α → Prop} {archive : Archive σ}
  {other : Archive τ} (compatible : Action.Compatible relates)
  (chunkers : archive.chunker = other.chunker)
include compatible chunkers

theorem relates_readToAllowed_of_fetch
    (fetches : ∀ key, relates _ (archive.chunker.fetch archive.store key)
      (other.chunker.fetch other.store key)) {sink : Sink σ} {otherSink : Sink τ}
    (sinks : ∀ bytes, relates _ (sink bytes) (otherSink bytes)) (allowance : Allowance) (root : Key) :
    relates _ (archive.readToAllowed allowance root sink)
      (other.readToAllowed allowance root otherSink) := by
  refine relates_openAt_of_fetch compatible chunkers fetches (fun part otherPart related => ?_) root
  rw [pieceOf, pieceOf, chunkers, related.size_eq]
  refine compatible.bind ?_ fun _ => relates_writeOut compatible chunkers related sinks
  obtain ⟨outcome, same⟩ :=
    allowance.check_eq_lift (min other.chunker.pieceSize otherPart.size)
  rw [same, same]
  exact compatible.lift outcome

theorem relates_readToAllowed
    (gets : ∀ key, relates _ (archive.store.get key) (other.store.get key)) {sink : Sink σ}
    {otherSink : Sink τ} (sinks : ∀ bytes, relates _ (sink bytes) (otherSink bytes))
    (allowance : Allowance) (root : Key) :
    relates _ (archive.readToAllowed allowance root sink)
      (other.readToAllowed allowance root otherSink) := by
  refine relates_readToAllowed_of_fetch compatible chunkers (fun key => ?_) sinks allowance root
  rw [chunkers]
  exact Chunker.relates_fetch compatible gets key

end Related

/-- What is written in all is written alike to an output that takes so much, and no more. -/
theorem run_readToAllowed_upTo {archive : Archive Bytes}
    (silent : ∀ key bad, Action.Keeps bad (archive.store.get key)) {limit : Nat} (allowance : Allowance)
    (root : Key) (written : Bytes)
    (fits : ((archive.readToAllowed allowance root Sink.appending).run written).2.size ≤ limit) :
    (archive.readToAllowed allowance root (Sink.upTo limit)).run written =
      (archive.readToAllowed allowance root Sink.appending).run written := by
  have alike := (relates_readToAllowed (Action.AlikeUntil.compatible fun bytes : Bytes =>
    limit < bytes.size) rfl (fun key => ⟨.refl _ _, silent key _⟩) (Sink.alike_upTo limit) allowance
      root).1
  rcases alike written with long | same
  · omega
  · exact same.symm

/-- Every node of a tree is in the table with its data. -/
def Undamaged (chunker : Chunker) (answers : Answers) (tree : Tree) : Prop :=
  ∀ node ∈ tree.preorder, ∃ held, answers (chunker.nameOf node.data) = .ok (some held) ∧
    held.data = some node.data

section Table

variable {chunker : Chunker} {answers : Answers} {content : Bytes} {shape : Shape}
  (positive : 0 < chunker.chunkSize) (covered : chunker.shapeOf content.size = .ok shape)
  (keyed : chunker.Keyed (chunker.treeAt shape.depth content))
  (whole : Undamaged chunker answers (chunker.treeAt shape.depth content))
  (short : ∀ node ∈ (chunker.treeAt shape.depth content).preorder, node.data.size < wordLimit)

theorem Undamaged.trueTo {tree : Tree} (whole : Undamaged chunker answers tree) :
    chunker.TrueTo answers tree := by
  intro node member held data got holds _
  obtain ⟨other, found, same⟩ := whole node member
  rw [got] at found
  cases found
  rw [holds] at same
  exact Option.some.inj same

include whole short

theorem damage?_of_undamaged {node : Tree}
    (member : node ∈ (chunker.treeAt shape.depth content).preorder) :
    chunker.damage? answers node = none :=
  Chunker.damage?_eq_none_iff.mpr ⟨whole node member, short node member⟩

include positive

/-- No range meets anything wrong. -/
theorem findSome?_meeting_of_undamaged {position count : Nat}
    (inside : position + count ≤ content.size) :
    (Chunker.meeting (chunker.treeAt shape.depth content) position count).findSome?
      (chunker.damage? answers) = none := by
  rw [List.findSome?_eq_none_iff]
  intro node met
  exact damage?_of_undamaged whole short
    (Chunker.mem_preorder_of_mem_meeting positive shape.depth inside met)

include covered keyed

theorem run_openAt_of_undamaged (written : Bytes) :
    ((⟨chunker, Store.answering answers⟩ : Archive Bytes).openAt
        (chunker.nameOf (chunker.treeAt shape.depth content).data)).run written =
      (.ok (chunker.sectionOf (Store.answering answers)
        ⟨(chunker.treeAt shape.depth content).data, content.size, shape⟩), written) := by
  rw [openAt, Chunker.join, Action.run_bind,
    Chunker.run_openRoot positive (Store.steady_answering answers) covered whole.trueTo keyed,
    damage?_of_undamaged whole short (Tree.mem_preorder_self _)]
  rfl

/-- Over a table that has all of a tree, the content is written. -/
theorem run_readToAllowed_of_undamaged {most : Nat} (streams : chunker.pieceSize ≠ 0)
    (fits : min chunker.pieceSize content.size ≤ most) (written : Bytes) :
    ((⟨chunker, Store.answering answers⟩ : Archive Bytes).readToAllowed (some most)
        (chunker.nameOf (chunker.treeAt shape.depth content).data) Sink.appending).run written =
      (.ok content.size, written ++ content) := by
  have undamaged : firstDamage chunker answers (chunker.treeAt shape.depth content) = none := by
    rw [firstDamage, damage?_of_undamaged whole short (Tree.mem_preorder_self _), Option.none_or]
    exact findSome?_meeting_of_undamaged positive whole short
      (by rw [Chunker.size_treeAt, Nat.zero_add])
  obtain ⟨count, ran, all, -⟩ :=
    run_readTo positive streams covered whole.trueTo keyed undamaged written
  rw [all rfl, Bytes.slice, Nat.zero_add, Array.extract_size] at ran
  have opened := run_openAt_of_undamaged positive covered keyed whole short written
  rw [readTo, Action.run_bind, opened] at ran
  rw [readToAllowed, Action.run_bind, opened]
  simp only at ran ⊢
  rw [pieceOf, Chunker.size_sectionOf, Allowance.check_of_le fits, pure_bind]
  exact ran

theorem run_readToAllowed_upTo_of_undamaged {most : Nat} (streams : chunker.pieceSize ≠ 0)
    (fits : min chunker.pieceSize content.size ≤ most) :
    ((⟨chunker, Store.answering answers⟩ : Archive Bytes).readToAllowed (some most)
        (chunker.nameOf (chunker.treeAt shape.depth content).data) (Sink.upTo content.size)).run #[] =
      (.ok content.size, content) := by
  have all := run_readToAllowed_of_undamaged positive covered keyed whole short streams fits #[]
  rw [Array.empty_append] at all
  have silent (key : Key) (bad : Bytes → Prop) : Action.Keeps bad ((Store.answering answers).get key) :=
    Action.Keeps.lift bad _
  rw [run_readToAllowed_upTo silent _ _ _ (by rw [all]), all]

end Table

end Archive

namespace Chunker

variable {chunker : Chunker}

/-- Every node of a tree is the root of the tree over some content. -/
theorem exists_treeAt_of_mem (depth : Nat) {content : Bytes} {node : Tree}
    (member : node ∈ (chunker.treeAt depth content).preorder) :
    ∃ lower part, node = chunker.treeAt lower part := by
  induction depth generalizing content with
  | zero =>
      rw [treeAt, Tree.preorder_eq] at member
      exact ⟨0, content, List.mem_singleton.mp member⟩
  | succ depth ih =>
      by_cases short : content.size < chunker.window (depth + 1)
      · rw [treeAt_of_lt short] at member
        exact ih member
      · rw [Tree.preorder_eq, List.mem_cons] at member
        rcases member with rfl | member
        · exact ⟨depth + 1, content, rfl⟩
        · obtain ⟨branch, below, inside⟩ := List.mem_flatMap.mp member
          rw [treeAt_of_le (Nat.le_of_not_lt short)] at below
          obtain ⟨piece, -, rfl⟩ := List.mem_map.mp below
          exact ih inside

end Chunker

end ChunkTree
