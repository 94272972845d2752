import ChunkTree.Proofs.Layout
import ChunkTree.Proofs.Sections

/-!
# The way down a tree

How the reader takes a tree apart, step by step: what a fetched chunk is known to be, how a read of
a node is the reads of its branches, and what of a store shows in an open tree.  The reader turns to
a store only to get chunks, so over two stores that answer in related ways it runs in related ways
(`Chunker.relates_openRoot`, `Chunker.relates_sectionOf`); and of what it gets only the data that
passes its check counts (`Chunker.relates_sectionOf_of_fetch`).
-/

namespace ChunkTree

variable {σ τ : Type}

namespace Chunker

variable {chunker : Chunker} {store : Store σ}

/-- A fetched chunk has data, and the data hashes to the key asked for. -/
theorem run_fetch_eq_ok_iff {key : Key} {before after : σ} {data : Bytes} :
    (chunker.fetch store key).run before = (.ok data, after) ↔
      (∃ chunk, (store.get key).run before = (.ok (some chunk), after) ∧ chunk.data = some data) ∧
        chunker.keyOf data = .ok key := by
  rw [fetch, Action.run_bind_eq_ok_iff]
  constructor
  · rintro ⟨answer, between, got, accepted⟩
    rcases answer with _ | ⟨chunkKey, _ | held, size⟩
    · cases accepted
    · cases accepted
    · rw [Action.run_bind, Action.run_lift] at accepted
      cases named : chunker.keyOf held with
      | error fault =>
          rw [named] at accepted
          cases accepted
      | ok actual =>
          rw [named] at accepted
          by_cases same : actual = key
          · simp only [same, ↓reduceIte, Action.run_pure] at accepted
            cases accepted
            exact ⟨⟨_, got, rfl⟩, same ▸ named⟩
          · simp only [same, ↓reduceIte, Action.run_throw] at accepted
            cases accepted
  · rintro ⟨⟨⟨chunkKey, _, size⟩, got, rfl⟩, named⟩
    refine ⟨_, after, got, ?_⟩
    simp only [Action.run_bind, Action.run_lift, named, ↓reduceIte, Action.run_pure]

/-- A chunk fetched for a branch is one fetched for its key that fits its place. -/
theorem run_fetchBranch_eq_ok_iff {key : Key} {shape : Shape} {size : Nat} {before after : σ}
    {data : Bytes} :
    (chunker.fetchBranch store key shape size).run before = (.ok data, after) ↔
      (chunker.fetch store key).run before = (.ok data, after) ∧
        chunker.Fits key data shape size := by
  rw [fetchBranch, Action.run_bind_eq_ok_iff]
  constructor
  · rintro ⟨fetched, between, got, accepted⟩
    obtain ⟨_, after, lifted, same⟩ := Action.run_bind_eq_ok_iff.mp accepted
    obtain ⟨checked, rfl⟩ := Prod.mk.inj lifted
    cases same
    exact ⟨got, accept_eq_ok_iff.mp checked⟩
  · rintro ⟨got, fits⟩
    refine ⟨data, after, got, ?_⟩
    rw [Action.run_bind, Action.run_lift, accept_eq_ok_iff.mpr fits]
    rfl

variable (chunker store) in
/-- What a read up to `stop` has of one branch of a node with `data` that covers `size` bytes. -/
def readBranch (depth window : Nat) (data : Bytes) (size position stop index : Nat) :
    Action σ Bytes := do
  let branchSize := min window (size - index * window)
  let shape := Shape.settle chunker.branches branchSize depth (window / chunker.branches)
  let branch ← chunker.fetchBranch store (chunker.branchKey data index) shape branchSize
  chunker.readNode store depth (window / chunker.branches) branch branchSize
    (max position (index * window) - index * window)
    (min stop (index * window + branchSize) - max position (index * window))

theorem readNode_of_lt {depth window : Nat} {data : Bytes} {size position count : Nat}
    (short : size < window) :
    chunker.readNode store (depth + 1) window data size position count =
      chunker.readNode store depth (window / chunker.branches) data size position count := by
  rw [readNode, if_pos short]

/-- A read of a node asks the branches that it meets, from left to right. -/
theorem readNode_of_le {depth window : Nat} {data : Bytes} {size position count : Nat}
    (full : window ≤ size) :
    chunker.readNode store (depth + 1) window data size position count =
      if data.size < Header.length + ((position + count - 1) / window + 1) * chunker.keySize then
        throw (.noBranchKey data.size ((position + count - 1) / window))
      else do
        let parts ← (List.range' (position / window)
          ((position + count - 1) / window + 1 - position / window)).mapM
            (chunker.readBranch store depth window data size position (position + count))
        return Bytes.concat parts := by
  rw [readNode, if_neg (Nat.not_lt_of_le full)]
  by_cases cut : data.size <
      Header.length + ((position + count - 1) / window + 1) * chunker.keySize
  · simp only [cut, ↓reduceIte]
    rfl
  · simp only [cut, ↓reduceIte]
    rfl

/-- An opened root was fetched for its key, has the shape of the size it states, and fits. -/
theorem run_openRoot_eq_ok_iff {key : Key} {before after : σ} {root : Root} :
    (chunker.openRoot store key).run before = (.ok root, after) ↔
      (chunker.fetch store key).run before = (.ok root.data, after) ∧
        chunker.shapeOf root.size = .ok root.shape ∧
        chunker.Fits key root.data (root.shape.normalize chunker.branches root.size) root.size := by
  rw [openRoot, Action.run_bind_eq_ok_iff]
  constructor
  · rintro ⟨data, between, got, accepted⟩
    obtain ⟨checked, rfl⟩ := Prod.mk.inj accepted
    obtain ⟨rfl, fits⟩ := rootOf_eq_ok_iff.mp checked
    exact ⟨got, fits⟩
  · rintro ⟨got, fits⟩
    refine ⟨root.data, after, got, ?_⟩
    rw [Action.run_lift, rootOf_eq_ok_iff.mpr ⟨rfl, fits⟩]

theorem run_join_eq_ok_iff {key : Key} {before after : σ} {part : Section σ} :
    (chunker.join store key).run before = (.ok part, after) ↔
      ∃ root, (chunker.openRoot store key).run before = (.ok root, after) ∧
        chunker.sectionOf store root = part := by
  rw [join, Action.run_bind_eq_ok_iff]
  constructor
  · rintro ⟨root, between, opened, same⟩
    cases same
    exact ⟨root, opened, rfl⟩
  · rintro ⟨root, opened, rfl⟩
    exact ⟨root, after, opened, rfl⟩

theorem size_sectionOf (root : Root) : (chunker.sectionOf store root).size = root.size := rfl

/-- Reading all of an open tree reads all of its root, also where there is nothing to read. -/
theorem readAll_sectionOf {root : Root} (covered : chunker.shapeOf root.size = .ok root.shape) :
    (chunker.sectionOf store root).readAll = chunker.readNode store root.shape.depth
      root.shape.window root.data root.size 0 root.size := by
  rcases root with ⟨data, size, shape⟩
  rw [Section.readAll, Section.readAt_of_le _ (Nat.zero_add _).le]
  change (if size = 0 then pure #[] else
    chunker.readNode store shape.depth shape.window data size (0 + 0) size) = _
  by_cases empty : size = 0
  · subst empty
    rw [shapeOf, Shape.cover, if_neg (Nat.not_lt_zero _), Except.ok.injEq] at covered
    subst covered
    rw [if_pos rfl, readNode, Bytes.slice_zero]
  · rw [if_neg empty]

section Related

variable {relates : ∀ α : Type, Action σ α → Action τ α → Prop} {other : Store τ}

theorem relates_fetch (compatible : Action.Compatible relates)
    (gets : ∀ key, relates _ (store.get key) (other.get key)) (key : Key) :
    relates _ (chunker.fetch store key) (chunker.fetch other key) := by
  refine compatible.bind (gets key) fun answer => ?_
  rcases answer with _ | ⟨chunkKey, _ | data, size⟩
  · exact compatible.throw _
  · exact compatible.throw _
  · refine compatible.bind (compatible.lift _) fun actual => ?_
    by_cases same : actual = key
    · simp only [same, ↓reduceIte]
      exact compatible.pure data
    · simp only [same, ↓reduceIte]
      exact compatible.throw _

theorem relates_fetchBranch_of_fetch (compatible : Action.Compatible relates)
    (fetches : ∀ key, relates _ (chunker.fetch store key) (chunker.fetch other key)) (key : Key)
    (shape : Shape) (size : Nat) :
    relates _ (chunker.fetchBranch store key shape size)
      (chunker.fetchBranch other key shape size) := by
  refine compatible.bind (fetches key) fun data => ?_
  exact compatible.bind (compatible.lift _) fun _ => compatible.pure data

/-- What a reader gets of a store are chunks that are fetched, so related fetches are enough for it to
run in related ways. -/
theorem relates_readNode_of_fetch (compatible : Action.Compatible relates)
    (fetches : ∀ key, relates _ (chunker.fetch store key) (chunker.fetch other key))
    (depth window : Nat) (data : Bytes) (size position count : Nat) :
    relates _ (chunker.readNode store depth window data size position count)
      (chunker.readNode other depth window data size position count) := by
  induction depth generalizing window data size position count with
  | zero => exact compatible.pure _
  | succ depth ih =>
      by_cases short : size < window
      · rw [readNode_of_lt short, readNode_of_lt short]
        exact ih _ _ _ _ _
      · rw [readNode_of_le (Nat.le_of_not_lt short), readNode_of_le (Nat.le_of_not_lt short)]
        by_cases cut : data.size <
            Header.length + ((position + count - 1) / window + 1) * chunker.keySize
        · rw [if_pos cut, if_pos cut]
          exact compatible.throw _
        · rw [if_neg cut, if_neg cut]
          refine compatible.bind (compatible.mapM fun index _ => ?_) fun parts =>
            compatible.pure _
          exact compatible.bind (relates_fetchBranch_of_fetch compatible fetches _ _ _)
            fun branch => ih _ _ _ _ _

theorem relates_openRoot_of_fetch (compatible : Action.Compatible relates)
    (fetches : ∀ key, relates _ (chunker.fetch store key) (chunker.fetch other key)) (key : Key) :
    relates _ (chunker.openRoot store key) (chunker.openRoot other key) :=
  compatible.bind (fetches key) fun _ => compatible.lift _

theorem relates_sectionOf_of_fetch (compatible : Action.Compatible relates)
    (fetches : ∀ key, relates _ (chunker.fetch store key) (chunker.fetch other key))
    (root : Root) :
    Section.Relates relates (chunker.sectionOf store root) (chunker.sectionOf other root) where
  start_eq := rfl
  size_eq := rfl
  source := relates_readNode_of_fetch compatible fetches _ _ _ _

theorem relates_fetchBranch (compatible : Action.Compatible relates)
    (gets : ∀ key, relates _ (store.get key) (other.get key)) (key : Key) (shape : Shape)
    (size : Nat) :
    relates _ (chunker.fetchBranch store key shape size)
      (chunker.fetchBranch other key shape size) :=
  relates_fetchBranch_of_fetch compatible (relates_fetch compatible gets) key shape size

theorem relates_readNode (compatible : Action.Compatible relates)
    (gets : ∀ key, relates _ (store.get key) (other.get key)) (depth window : Nat) (data : Bytes)
    (size position count : Nat) :
    relates _ (chunker.readNode store depth window data size position count)
      (chunker.readNode other depth window data size position count) :=
  relates_readNode_of_fetch compatible (relates_fetch compatible gets) _ _ _ _ _ _

theorem relates_openRoot (compatible : Action.Compatible relates)
    (gets : ∀ key, relates _ (store.get key) (other.get key)) (key : Key) :
    relates _ (chunker.openRoot store key) (chunker.openRoot other key) :=
  relates_openRoot_of_fetch compatible (relates_fetch compatible gets) key

theorem relates_sectionOf (compatible : Action.Compatible relates)
    (gets : ∀ key, relates _ (store.get key) (other.get key)) (root : Root) :
    Section.Relates relates (chunker.sectionOf store root) (chunker.sectionOf other root) :=
  relates_sectionOf_of_fetch compatible (relates_fetch compatible gets) root

end Related

theorem keeps_openRoot {kind : σ → Prop} (stays : ∀ key, Action.Keeps kind (store.get key))
    (key : Key) : Action.Keeps kind (chunker.openRoot store key) :=
  (relates_openRoot (Action.Keeps.compatible kind) (fun key => ⟨rfl, stays key⟩) key).2

theorem keeps_readNode {kind : σ → Prop} (stays : ∀ key, Action.Keeps kind (store.get key))
    (depth window : Nat) (data : Bytes) (size position count : Nat) :
    Action.Keeps kind (chunker.readNode store depth window data size position count) :=
  (relates_readNode (Action.Keeps.compatible kind) (fun key => ⟨rfl, stays key⟩) depth window data
    size position count).2

theorem keeps_readBranch {kind : σ → Prop} (stays : ∀ key, Action.Keeps kind (store.get key))
    (depth window : Nat) (data : Bytes) (size position stop index : Nat) :
    Action.Keeps kind (chunker.readBranch store depth window data size position stop index) :=
  (relates_fetchBranch (Action.Keeps.compatible kind) (fun key => ⟨rfl, stays key⟩) _ _ _).2.bind
    fun _ => keeps_readNode stays _ _ _ _ _ _

theorem keeps_readAt {kind : σ → Prop} (stays : ∀ key, Action.Keeps kind (store.get key))
    {root : Root} {ranges : List (Nat × Nat)} {view : Section σ}
    (sliced : (chunker.sectionOf store root).cut ranges = .ok view) (position count : Nat) :
    Action.Keeps kind (view.readAt position count) := by
  have related : Section.Relates _ (chunker.sectionOf store root) (chunker.sectionOf store root) :=
    relates_sectionOf (Action.Keeps.compatible kind) (fun key => ⟨rfl, stays key⟩) root
  obtain ⟨first, same, related⟩ := related.cut sliced
  rw [sliced, Except.ok.injEq] at same
  subst same
  exact (related.readAt (Action.Keeps.compatible kind) position count).2

end Chunker

end ChunkTree
