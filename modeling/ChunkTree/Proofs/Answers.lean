import ChunkTree.Proofs.Spans
import ChunkTree.Proofs.Transcript

/-!
# Stores that always answer alike

A store whose answers do not change while it is read is as good as a table of answers
(`Store.Steady`): whatever is done with the store is done with the table (`Action.Predicts`).  Over a
table that has no false data with the digest of a chunk, a demand for a node finds the damage that
the table does to it (`Chunker.damage?`), demands one after the other stop at the first damage
(`Chunker.run_forM_demand`), and opening and reading a tree are such demands (`Chunker.run_openRoot`,
`Chunker.run_readAt`).
-/

namespace ChunkTree

variable {σ τ α β : Type}

/-- Whatever state looks like what the model starts from, the action has the outcome of the model,
and leaves a state that looks like what the model leaves. -/
def Action.Predicts (looks : τ → σ → Prop) (model : Action τ α) (action : Action σ α) : Prop :=
  ∀ seen state, looks seen state →
    (action.run state).1 = (model.run seen).1 ∧ looks (model.run seen).2 (action.run state).2

namespace Action

variable {looks : τ → σ → Prop}

theorem Predicts.compatible (looks : τ → σ → Prop) :
    Compatible fun α (model : Action τ α) (action : Action σ α) => Predicts looks model action where
  lift outcome := fun seen state like => ⟨rfl, like⟩
  bind := by
    intro α β model action next other first second seen state like
    obtain ⟨same, between⟩ := first seen state like
    rw [run_bind, run_bind]
    rcases ran : action.run state with ⟨outcome, after⟩
    rcases modelled : model.run seen with ⟨expected, left⟩
    rw [ran, modelled] at same between
    cases same
    rcases outcome with fault | answer
    · exact ⟨rfl, between⟩
    · exact second answer left after between

/-- What the model does, the action does. -/
theorem Predicts.run {model : Action τ α} {action : Action σ α}
    (predicts : Predicts looks model action) {seen left : τ} (state : σ) {outcome : Except Fault α}
    (like : looks seen state) (modelled : model.run seen = (outcome, left)) :
    ∃ after, action.run state = (outcome, after) ∧ looks left after := by
  obtain ⟨same, after⟩ := predicts seen state like
  rw [modelled] at same after
  exact ⟨_, Prod.ext same rfl, after⟩

/-- Actions that run alike until something happens that never does are the same. -/
theorem AlikeUntil.eq {first second : Action σ α}
    (alike : AlikeUntil (fun _ => False) first second) : first = second :=
  Action.ext fun state => (alike state).resolve_left id

end Action

/-- What a store has under every key: a chunk, nothing, or a fault. -/
abbrev Answers := Key → Except Fault (Option Chunk)

/-- As long as its state is of some kind, the store answers from a table, and its state stays of that
kind. -/
def Store.Steady (store : Store σ) (kind : σ → Prop) (answers : Answers) : Prop :=
  ∀ key state, kind state → ((store.get key).run state).1 = answers key ∧
    kind ((store.get key).run state).2

/-- The table as a store. -/
def Store.answering (answers : Answers) : Store σ where
  put _ := return
  get key := .lift (answers key)

namespace Store

variable {store : Store σ} {kind : σ → Prop} {answers : Answers}

theorem steady_answering (answers : Answers) :
    (answering answers : Store σ).Steady (fun _ => True) answers :=
  fun _ _ _ => ⟨rfl, trivial⟩

/-- A transcript does not change the answers. -/
theorem Steady.transcribed (steady : store.Steady kind answers) :
    store.transcribed.Steady (fun state => kind state.1) answers := by
  rintro key ⟨state, transcript⟩ start
  rw [run_get_transcribed]
  exact steady key state start

/-- The table with its transcript predicts a steady store with its transcript. -/
theorem Steady.predicts (steady : store.Steady kind answers) (key : Key) :
    Action.Predicts (fun (seen : Unit × Transcript) state => kind state.1 ∧ state.2 = seen.2)
      ((answering answers).transcribed.get key) (store.transcribed.get key) := by
  rintro ⟨_, _⟩ ⟨state, transcript⟩ ⟨start, rfl⟩
  obtain ⟨same, after⟩ := steady key state start
  rw [run_get_transcribed, run_get_transcribed, same]
  exact ⟨rfl, after, rfl⟩

end Store

/-- The items up to the first that stops, and that one. -/
def upTo (stops : α → Bool) : List α → List α
  | [] => []
  | item :: rest => if stops item then [item] else item :: upTo stops rest

theorem upTo_eq_self {stops : α → Bool} {items : List α}
    (goes : ∀ item ∈ items, stops item = false) : upTo stops items = items := by
  induction items with
  | nil => rfl
  | cons item rest ih =>
      have here : ¬ stops item = true := by
        rw [goes item List.mem_cons_self]
        exact Bool.false_ne_true
      rw [upTo, if_neg here, ih fun later member => goes later (List.mem_cons_of_mem _ member)]

/-- The answer, unless there is a fault. -/
def answerUnless (fault : Option Fault) (answer : α) : Except Fault α :=
  match fault with
  | none => .ok answer
  | some fault => .error fault

theorem Action.run_bind_answerUnless {action : Action σ Unit} {fault : Option Fault}
    {before after : σ} (answer : α) (ran : action.run before = (answerUnless fault (), after)) :
    (do action; return answer : Action σ α).run before = (answerUnless fault answer, after) := by
  rw [Action.run_bind, ran]
  cases fault with
  | none => rfl
  | some fault => rfl

namespace Chunker

variable (chunker : Chunker) (answers : Answers)

/-- What a reader finds wrong with what there is under the key of a node, if anything.  Other data
than that of the node has another digest, or one that is not as long as keys are; and data of more
bytes than a word can count, which no memory holds, would be refused for its length. -/
def damage? (node : Tree) : Option Fault :=
  match answers (chunker.nameOf node.data) with
  | .error fault => some fault
  | .ok none => some (.chunkMissing (chunker.nameOf node.data))
  | .ok (some ⟨_, none, _⟩) => some (.noData (chunker.nameOf node.data))
  | .ok (some ⟨_, some data, _⟩) =>
    if data = node.data then
      if node.data.size < wordLimit then none
      else some (.lengthMismatch (chunker.nameOf node.data) node.data.size
        (node.data.size % wordLimit))
    else if (chunker.hasher.digest data).size = chunker.keySize then
      some (.integrity (chunker.nameOf node.data))
    else some .digestLength

/-- No false data with the digest of a node of the tree is under the key of the node. -/
def TrueTo (tree : Tree) : Prop :=
  ∀ node ∈ tree.preorder, ∀ (held : Chunk) (data : Bytes),
    answers (chunker.nameOf node.data) = .ok (some held) → held.data = some data →
    chunker.hasher.digest data = chunker.hasher.digest node.data → data = node.data

/-- Nothing in the table has the digest of one of these chunks and other data. -/
def TrueToChunks (chunks : Array Chunk) : Prop :=
  ∀ (key : Key) (held : Chunk) (data : Bytes), answers key = .ok (some held) →
    held.data = some data → ∀ chunk ∈ chunks, chunk.key = chunker.nameOf data →
      chunk.data = some data

variable {chunker answers}

theorem TrueToChunks.trueTo {tree : Tree}
    (honest : chunker.TrueToChunks answers (tree.postorder.map chunker.chunkOf).toArray) :
    chunker.TrueTo answers tree := by
  intro node member held data got holds digests
  have same := honest _ held data got holds (chunker.chunkOf node) (chunkOf_mem_postorder member)
    (congrArg Key.mk digests.symm)
  exact (Option.some.inj same).symm

/-- Nothing is wrong exactly with the data of the node. -/
theorem damage?_eq_none_iff {node : Tree} :
    chunker.damage? answers node = none ↔
      (∃ held, answers (chunker.nameOf node.data) = .ok (some held) ∧
        held.data = some node.data) ∧ node.data.size < wordLimit := by
  unfold damage?
  rcases answers (chunker.nameOf node.data) with fault | _ | ⟨key, _ | data, size⟩
  · simp
  · simp
  · simp
  · by_cases same : data = node.data
    · by_cases short : node.data.size < wordLimit
      · simp [same, short]
      · simp [same, short]
    · by_cases long : (chunker.hasher.digest data).size = chunker.keySize
      · simp [same, long]
      · simp [same, long]

section Steady

variable {store : Store σ} {tree : Tree}

theorem trueUntil_of_steady (steady : store.Steady (fun _ => True) answers)
    (honest : chunker.TrueTo answers tree) : chunker.TrueUntil store (fun _ => False) tree where
  stays _ := fun _ never => never
  honest := by
    intro node member before after held data got holds digests
    have answer := (steady (chunker.nameOf node.data) before trivial).1
    rw [got] at answer
    exact .inl (honest node member held data answer.symm holds digests)

/-- A demand finds the damage to the node that it is for, and asks for nothing else. -/
theorem run_demand (steady : store.Steady (fun _ => True) answers)
    (honest : chunker.TrueTo answers tree) (keyed : chunker.Keyed tree) {node : Tree}
    (member : node ∈ tree.preorder) (state : σ) :
    (chunker.demand store node).run state =
      (answerUnless (chunker.damage? answers node) (),
        ((store.get (chunker.nameOf node.data)).run state).2) := by
  have answer := (steady (chunker.nameOf node.data) state trivial).1
  have named : chunker.keyOf node.data = .ok (chunker.nameOf node.data) :=
    chunker.keyOf_eq_ok_iff.mpr ⟨keyed node member, rfl⟩
  rcases ran : (store.get (chunker.nameOf node.data)).run state with ⟨outcome, after⟩
  rw [ran] at answer
  rw [demand, fetch, Action.run_bind, Action.run_bind, ran, damage?]
  simp only at answer ⊢
  subst answer
  rcases found : answers (chunker.nameOf node.data) with fault | _ | ⟨key, _ | data, size⟩
  · rfl
  · rfl
  · rfl
  · simp only [Action.run_bind, Action.run_lift]
    by_cases same : data = node.data
    · subst same
      simp only [named, ↓reduceIte, Action.run_pure, countable]
      by_cases short : node.data.size < wordLimit
      · simp only [short, ↓reduceIte, answerUnless]
      · simp only [short, ↓reduceIte, answerUnless]
    · by_cases long : (chunker.hasher.digest data).size = chunker.keySize
      · have differs : chunker.nameOf data ≠ chunker.nameOf node.data := fun equal =>
          same (honest node member _ data found rfl (congrArg Key.bytes equal))
        have other : chunker.keyOf data = .ok (chunker.nameOf data) :=
          chunker.keyOf_eq_ok_iff.mpr ⟨long, rfl⟩
        simp only [other, differs, same, long, ↓reduceIte, Action.run_throw, answerUnless]
      · have other : chunker.keyOf data = .error .digestLength := by
          rw [keyOf]
          exact if_neg long
        simp only [other, same, long, ↓reduceIte, answerUnless]

/-- **Demands stop at the first damage.** Demands for nodes, one after the other, ask for the nodes
up to the first that is damaged, and end with the damage to that one. -/
theorem run_forM_demand (steady : store.Steady (fun _ => True) answers)
    (honest : chunker.TrueTo answers tree) (keyed : chunker.Keyed tree) {nodes : List Tree}
    (members : ∀ node ∈ nodes, node ∈ tree.preorder) (state : σ) :
    (forM nodes (chunker.demand store) : Action σ Unit).run state =
      (answerUnless (nodes.findSome? (chunker.damage? answers)) (),
        (upTo (fun node => (chunker.damage? answers node).isSome) nodes).foldl
          (fun state node => ((store.get (chunker.nameOf node.data)).run state).2) state) := by
  induction nodes generalizing state with
  | nil => rfl
  | cons node rest ih =>
      rw [List.forM_cons, Action.run_bind,
        run_demand steady honest keyed (members node List.mem_cons_self), List.findSome?_cons, upTo]
      cases found : chunker.damage? answers node with
      | some fault => simp [answerUnless]
      | none =>
          have others := ih (fun other member => members other (List.mem_cons_of_mem _ member))
          simp only [answerUnless, others, Option.isSome_none, Bool.false_eq_true, ↓reduceIte,
            List.foldl_cons]

end Steady

section Content

variable {store : Store σ} {content : Bytes} {shape : Shape}

/-- Over a table, opening a tree is a demand for its root. -/
theorem openRoot_eq (positive : 0 < chunker.chunkSize)
    (steady : store.Steady (fun _ => True) answers)
    (covered : chunker.shapeOf content.size = .ok shape)
    (honest : chunker.TrueTo answers (chunker.treeAt shape.depth content))
    (keyed : chunker.Keyed (chunker.treeAt shape.depth content)) :
    chunker.openRoot store (chunker.nameOf (chunker.treeAt shape.depth content).data) =
      (do chunker.demand store (chunker.treeAt shape.depth content)
          return ⟨(chunker.treeAt shape.depth content).data, content.size, shape⟩) :=
  (alike_openRoot positive covered (trueUntil_of_steady steady honest) keyed).eq

/-- The nodes below the root of a tree whose spans have something of a range, each before its
branches. -/
def meeting (tree : Tree) (position count : Nat) : List Tree :=
  (tree.descendants.filter (·.Meets position count)).map Span.node

/-- Nothing has something of an empty range. -/
theorem meeting_zero (tree : Tree) (position : Nat) : meeting tree position 0 = [] := by
  rw [meeting, List.map_eq_nil_iff, List.filter_eq_nil_iff]
  intro span _
  rw [decide_eq_true_eq, Span.Meets]
  omega

theorem asks_eq_meeting (positive : 0 < chunker.chunkSize) (depth : Nat) {content : Bytes}
    {position count : Nat} (inside : position + count ≤ content.size) :
    chunker.asks depth content position count =
      meeting (chunker.treeAt depth content) position count := by
  rw [asks]
  by_cases empty : count = 0
  · rw [if_pos empty, empty, meeting_zero]
  · rw [if_neg empty, visits_eq positive depth 0 (Nat.pos_of_ne_zero empty) inside, Nat.zero_add]
    rfl

theorem mem_preorder_of_mem_meeting (positive : 0 < chunker.chunkSize) (depth : Nat)
    {content : Bytes} {position count : Nat} (inside : position + count ≤ content.size)
    {node : Tree} (met : node ∈ meeting (chunker.treeAt depth content) position count) :
    node ∈ (chunker.treeAt depth content).preorder := by
  by_cases empty : count = 0
  · rw [empty, meeting_zero] at met
    exact absurd met List.not_mem_nil
  · rw [← asks_eq_meeting positive depth inside, asks, if_neg empty] at met
    exact mem_preorder_of_mem_visits positive depth (Nat.pos_of_ne_zero empty) inside met

/-- Over a table, reading a range of a slice of an open tree is a demand for the nodes that the
range meets. -/
theorem readAt_eq (positive : 0 < chunker.chunkSize)
    (steady : store.Steady (fun _ => True) answers)
    (covered : chunker.shapeOf content.size = .ok shape)
    (honest : chunker.TrueTo answers (chunker.treeAt shape.depth content))
    (keyed : chunker.Keyed (chunker.treeAt shape.depth content)) {ranges : List (Nat × Nat)}
    {view : Section σ} {position count : Nat}
    (sliced : (chunker.sectionOf store
      ⟨(chunker.treeAt shape.depth content).data, content.size, shape⟩).cut ranges = .ok view)
    (inside : position + count ≤ view.size) :
    view.readAt position count =
      (do forM (meeting (chunker.treeAt shape.depth content) (Section.offset ranges + position)
            count) (chunker.demand store)
          return content.slice (Section.offset ranges + position) count) := by
  have within : Section.offset ranges + view.size ≤ content.size :=
    (Section.eq_of_cut_eq_ok sliced).2
  rw [← asks_eq_meeting positive shape.depth (by omega)]
  exact (alike_readAt positive covered (trueUntil_of_steady steady honest) keyed sliced inside).eq

theorem run_openRoot (positive : 0 < chunker.chunkSize)
    (steady : store.Steady (fun _ => True) answers)
    (covered : chunker.shapeOf content.size = .ok shape)
    (honest : chunker.TrueTo answers (chunker.treeAt shape.depth content))
    (keyed : chunker.Keyed (chunker.treeAt shape.depth content)) (state : σ) :
    (chunker.openRoot store (chunker.nameOf (chunker.treeAt shape.depth content).data)).run state =
      (answerUnless (chunker.damage? answers (chunker.treeAt shape.depth content))
          ⟨(chunker.treeAt shape.depth content).data, content.size, shape⟩,
        ((store.get (chunker.nameOf (chunker.treeAt shape.depth content).data)).run state).2) := by
  rw [openRoot_eq positive steady covered honest keyed]
  apply Action.run_bind_answerUnless
  exact run_demand steady honest keyed (Tree.mem_preorder_self _) state

theorem run_readAt (positive : 0 < chunker.chunkSize)
    (steady : store.Steady (fun _ => True) answers)
    (covered : chunker.shapeOf content.size = .ok shape)
    (honest : chunker.TrueTo answers (chunker.treeAt shape.depth content))
    (keyed : chunker.Keyed (chunker.treeAt shape.depth content)) {ranges : List (Nat × Nat)}
    {view : Section σ} {position count : Nat}
    (sliced : (chunker.sectionOf store
      ⟨(chunker.treeAt shape.depth content).data, content.size, shape⟩).cut ranges = .ok view)
    (inside : position + count ≤ view.size) (state : σ) :
    (view.readAt position count).run state =
      (answerUnless
        ((meeting (chunker.treeAt shape.depth content) (Section.offset ranges + position)
          count).findSome? (chunker.damage? answers))
        (content.slice (Section.offset ranges + position) count),
      (upTo (fun node => (chunker.damage? answers node).isSome)
        (meeting (chunker.treeAt shape.depth content) (Section.offset ranges + position)
          count)).foldl (fun state node => ((store.get (chunker.nameOf node.data)).run state).2)
        state) := by
  have within : Section.offset ranges + view.size ≤ content.size :=
    (Section.eq_of_cut_eq_ok sliced).2
  rw [readAt_eq positive steady covered honest keyed sliced inside]
  apply Action.run_bind_answerUnless
  apply run_forM_demand steady honest keyed
  intro node met
  exact mem_preorder_of_mem_meeting positive shape.depth (by omega) met

/-- Reading a range of the open tree itself. -/
theorem run_readAt_sectionOf (positive : 0 < chunker.chunkSize)
    (steady : store.Steady (fun _ => True) answers)
    (covered : chunker.shapeOf content.size = .ok shape)
    (honest : chunker.TrueTo answers (chunker.treeAt shape.depth content))
    (keyed : chunker.Keyed (chunker.treeAt shape.depth content)) {position count : Nat}
    (inside : position + count ≤ content.size) (state : σ) :
    ((chunker.sectionOf store ⟨(chunker.treeAt shape.depth content).data, content.size,
        shape⟩).readAt position count).run state =
      (answerUnless
        ((meeting (chunker.treeAt shape.depth content) position count).findSome?
          (chunker.damage? answers))
        (content.slice position count),
      (upTo (fun node => (chunker.damage? answers node).isSome)
        (meeting (chunker.treeAt shape.depth content) position count)).foldl
          (fun state node => ((store.get (chunker.nameOf node.data)).run state).2) state) := by
  have read := run_readAt positive steady covered honest keyed
    (rfl : (chunker.sectionOf store ⟨(chunker.treeAt shape.depth content).data, content.size,
      shape⟩).cut [] = .ok _) inside state
  rwa [Section.offset, List.map_nil, List.sum_nil, Nat.zero_add] at read

end Content

/-- The answers of a store that has lost the second of two leaves. -/
def tinyAnswers : Answers := fun key => .ok ((tinyRoot :: tinyLeaves.take 1).find? (·.key = key))

theorem trueToChunks_tinyAnswers :
    tiny.TrueToChunks tinyAnswers (tinyLeaves ++ [tinyRoot]).toArray := by
  have each : ∀ held ∈ tinyRoot :: tinyLeaves.take 1, ∀ data ∈ held.data,
      ∀ chunk ∈ (tinyLeaves ++ [tinyRoot]).toArray, chunk.key = tiny.nameOf data →
        chunk.data = some data := by
    decide +kernel
  intro key held data found holds
  exact each held (List.mem_of_find?_eq_some (Except.ok.inj found)) data holds

end Chunker

end ChunkTree
