import ChunkTree.Proofs.Emission
import ChunkTree.Proofs.Nodes

/-!
# What splitting and reading come to

A splitter and a reader can note every node that they come to, with the shape and the section that it is
handed (`Chunker.notedSplit`, `Chunker.notedSection`).  They run as the plain ones do, and both come to the
nodes of one tree, in the order in which it has them: splitting to all, up to where it fails, and reading to
those that have something of the range (`Action.Notes`).  So at every path they are handed the same shape and
section, and all of these are regular (`Chunker.oneTree_of_shapeOf`).
-/

namespace ChunkTree

variable {σ τ α β : Type}

namespace Action

/-- The first action runs as the second does, and adds the items of a list to a log beside the state: all of
them if it succeeds, and if not those up to some of them. -/
def Notes (noted : Action (σ × List τ) α) (action : Action σ α) (items : List τ) : Prop :=
  ∀ state log, ∃ notes,
    noted.run (state, log) = ((action.run state).1, (action.run state).2, log ++ notes) ∧
      notes <+: items ∧ ∀ answer, (action.run state).1 = .ok answer → notes = items

/-- An action beside the log notes nothing. -/
theorem Notes.within (action : Action σ α) : Notes (action.within .fst) action ([] : List τ) :=
  fun state log => ⟨[], by rw [List.append_nil]; rfl, List.prefix_rfl, fun _ _ => rfl⟩

/-- What is thrown on the way leaves a list unfinished. -/
theorem Notes.throw (fault : Fault) (items : List τ) :
    Notes (throw fault : Action (σ × List τ) α) (throw fault) items :=
  fun state log => ⟨[], by rw [List.append_nil]; rfl, List.nil_prefix, fun answer ok => by cases ok⟩

theorem Notes.bind {noted : Action (σ × List τ) α} {action : Action σ α} {items others : List τ}
    {next : α → Action (σ × List τ) β} {other : α → Action σ β} (first : Notes noted action items)
    (second : ∀ answer, Notes (next answer) (other answer) others) :
    Notes (noted >>= next) (action >>= other) (items ++ others) := by
  intro state log
  obtain ⟨notes, ran, before, all⟩ := first state log
  rw [run_bind, run_bind, ran]
  rcases outcome : action.run state with ⟨fault | answer, between⟩
  · exact ⟨notes, rfl, before.trans (List.prefix_append _ _), fun _ ok => by cases ok⟩
  · obtain rfl : notes = items := all answer (by rw [outcome])
    obtain ⟨more, ran, before, all⟩ := second answer between (log ++ notes)
    refine ⟨notes ++ more, ?_, (List.prefix_append_right_inj notes).mpr before, fun result ok => ?_⟩
    · rw [← List.append_assoc]
      exact ran
    · rw [all result ok]

theorem Notes.within_bind {items : List τ} (action : Action σ α)
    {next : α → Action (σ × List τ) β} {other : α → Action σ β}
    (notes : ∀ answer, Notes (next answer) (other answer) items) :
    Notes (action.within .fst >>= next) (action >>= other) items :=
  (Notes.within action).bind notes

theorem Notes.bind_within {noted : Action (σ × List τ) α} {action : Action σ α} {items : List τ}
    (notes : Notes noted action items) (next : α → Action σ β) :
    Notes (noted >>= fun answer => (next answer).within .fst) (action >>= next) items := by
  have whole := notes.bind fun answer => Notes.within (next answer)
  rwa [List.append_nil] at whole

/-- One note before an action. -/
theorem Notes.cons {noted : Action (σ × List τ) α} {action : Action σ α} {items : List τ}
    (notes : Notes noted action items) (item : τ) :
    Notes (do update fun (state, log) => (state, log ++ [item]); noted) action (item :: items) := by
  intro state log
  obtain ⟨more, ran, before, all⟩ := notes state (log ++ [item])
  refine ⟨item :: more, ?_, (List.prefix_cons_inj item).mpr before, fun answer ok => ?_⟩
  · have joined : log ++ item :: more = log ++ [item] ++ more := by
      rw [List.append_assoc, List.singleton_append]
    rw [joined]
    exact ran
  · rw [all answer ok]

theorem Notes.mapM {step : α → Action (σ × List τ) β} {other : α → Action σ β} {items : List α}
    {trace : α → List τ} (each : ∀ item ∈ items, Notes (step item) (other item) (trace item)) :
    Notes (items.mapM step) (items.mapM other) (items.flatMap trace) := by
  induction items with
  | nil =>
      rw [List.mapM_nil, List.mapM_nil]
      exact Notes.within (Action.pure [])
  | cons item rest ih =>
      rw [List.mapM_cons, List.mapM_cons, List.flatMap_cons]
      refine (each item List.mem_cons_self).bind fun answer => ?_
      exact (ih fun later member => each later (List.mem_cons_of_mem _ member)).bind_within
        fun answers => Action.pure (answer :: answers)

end Action

namespace Chunker

variable (chunker : Chunker)

/-- Notes a node beside the state. -/
def come (node : Node) : Action (σ × List Node) Unit :=
  .update fun (state, nodes) => (state, nodes ++ [node])

/-- Splits a section at a place as `splitAt` does, and notes the nodes of the branches as it comes to them.
The path is that of the place. -/
def notedSplitAt (collect : Collector σ) : (depth window : Nat) → (path : List Nat) → Section σ →
    Action (σ × List Node) Key
  | 0, window, _, part => (chunker.splitAt collect 0 window part).within .fst
  | depth + 1, window, path, part =>
    if part.size < window then
      notedSplitAt collect depth (window / chunker.branches) path part
    else do
      let keys ← (List.range (branchCount window part.size)).mapM fun index => do
        let branch := part.branch window index
        come ⟨path ++ [index], ⟨depth, window / chunker.branches⟩, branch.start, branch.size⟩
        notedSplitAt collect depth (window / chunker.branches) (path ++ [index]) branch
      (chunker.emit collect part.size (Bytes.concat (keys.map Key.bytes))).within .fst

/-- Splits as `split` does, and notes the nodes that it comes to. -/
def notedSplit (part : Section σ) (collect : Collector σ) : Action (σ × List Node) Key := do
  let shape ← .lift (chunker.shapeOf part.size)
  come ⟨[], shape, part.start, part.size⟩
  chunker.notedSplitAt collect shape.depth shape.window [] part

/-- Reads as `readNode` does, and notes the nodes of the branches as it comes to them.  The path is that of
the node, and its content starts at `start`. -/
def notedNode (store : Store σ) : (depth window : Nat) → (path : List Nat) → (start : Nat) →
    (data : Bytes) → (size position count : Nat) → Action (σ × List Node) Bytes
  | 0, window, _, _, data, size, position, count =>
    (chunker.readNode store 0 window data size position count).within .fst
  | depth + 1, window, path, start, data, size, position, count =>
    if size < window then
      notedNode store depth (window / chunker.branches) path start data size position count
    else do
      let stop := position + count
      let first := position / window
      let last := (stop - 1) / window
      if data.size < Header.length + (last + 1) * chunker.keySize then
        throw (.noBranchKey data.size last)
      else
        let parts ← (List.range' first (last + 1 - first)).mapM fun index => do
          let branchStart := index * window
          let branchSize := min window (size - branchStart)
          let low := max position branchStart
          let high := min stop (branchStart + branchSize)
          let shape := Shape.settle chunker.branches branchSize depth (window / chunker.branches)
          let branch ←
            (chunker.fetchBranch store (chunker.branchKey data index) shape branchSize).within .fst
          come ⟨path ++ [index], ⟨depth, window / chunker.branches⟩, start + branchStart, branchSize⟩
          notedNode store depth (window / chunker.branches) (path ++ [index]) (start + branchStart)
            branch branchSize (low - branchStart) (high - low)
        return Bytes.concat parts

/-- The content under a root, noting the nodes that a read comes to. -/
def notedSection (store : Store σ) (root : Root) : Section (σ × List Node) :=
  .whole (fun position count => do
    come ⟨[], root.shape, 0, root.size⟩
    chunker.notedNode store root.shape.depth root.shape.window [] 0 root.data root.size position count)
    root.size

/-- Splitting comes to the nodes of a tree in their order. -/
theorem notes_notedSplitAt (collect : Collector σ) (depth window : Nat) (path : List Nat)
    (part : Section σ) :
    Action.Notes (chunker.notedSplitAt collect depth window path part)
      (chunker.splitAt collect depth window part)
      (chunker.below depth window path part.start part.size) := by
  induction depth generalizing window path part with
  | zero => exact Action.Notes.within _
  | succ depth ih =>
      rw [notedSplitAt, splitAt]
      by_cases short : part.size < window
      · rw [if_pos short, if_pos short, below_of_lt path part.start short]
        exact ih _ _ _
      · rw [if_neg short, if_neg short, below_of_le path part.start (Nat.le_of_not_lt short)]
        refine (Action.Notes.mapM fun index _ => ?_).bind_within _
        exact (ih (window / chunker.branches) (path ++ [index]) (part.branch window index)).cons _

variable {chunker}

/-- Splitting comes to the nodes of the tree over a section, each where the section has it. -/
theorem notes_notedSplit {shape : Shape} (collect : Collector σ) {part : Section σ}
    (covered : chunker.shapeOf part.size = .ok shape) :
    Action.Notes (chunker.notedSplit part collect) (chunker.split part (some collect))
      ((chunker.nodes shape part.size).map (·.moved part.start)) := by
  have splits := chunker.notes_notedSplitAt collect shape.depth shape.window [] part
  rw [← Nat.add_zero part.start, below_moved] at splits
  rw [notedSplit, split, covered]
  exact splits.cons ⟨[], shape, part.start, part.size⟩

/-- What is below a node that has nothing of the range has nothing of it either. -/
theorem filter_branch_eq_nil (positive : 0 < chunker.chunkSize) {depth size index position count : Nat}
    {path : List Nat} {start : Nat}
    (apart : index < position / chunker.window (depth + 1) ∨
      (position + count - 1) / chunker.window (depth + 1) + 1 ≤ index) (nonempty : 0 < count) :
    ((chunker.branchNode depth (chunker.window (depth + 1)) path start size index ::
      chunker.below depth (chunker.window depth) (path ++ [index])
        (start + index * chunker.window (depth + 1))
        (min (chunker.window (depth + 1)) (size - index * chunker.window (depth + 1)))).filter
          fun node => node.Meets (start + position) count) = [] := by
  have wide := window_pos positive (depth + 1)
  have clear : index * chunker.window (depth + 1) + chunker.window (depth + 1) ≤ position ∨
      position + count ≤ index * chunker.window (depth + 1) := by
    rcases apart with early | late
    · left
      rw [← Nat.succ_mul]
      exact (Nat.le_div_iff_mul_le wide).mp early
    · right
      have past := (Nat.div_lt_iff_lt_mul wide).mp (Nat.lt_of_succ_le late)
      omega
  rw [List.filter_eq_nil_iff]
  intro node member
  rw [decide_eq_true_eq]
  simp only [Node.Meets]
  rcases List.mem_cons.mp member with rfl | below
  · simp only [branchNode]
    omega
  · have inside := bounds_of_mem_below positive below
    omega

/-- A branch that the range reaches has something of it, and what it has decides about the nodes below. -/
theorem filter_branch_of_mem (positive : 0 < chunker.chunkSize) {depth size index position count : Nat}
    {path : List Nat} {start : Nat} (nonempty : 0 < count) (inside : position + count ≤ size)
    (meets : index ∈ List.range' (position / chunker.window (depth + 1))
      ((position + count - 1) / chunker.window (depth + 1) + 1 -
        position / chunker.window (depth + 1))) :
    ((chunker.branchNode depth (chunker.window (depth + 1)) path start size index ::
      chunker.below depth (chunker.window depth) (path ++ [index])
        (start + index * chunker.window (depth + 1))
        (min (chunker.window (depth + 1)) (size - index * chunker.window (depth + 1)))).filter
          fun node => node.Meets (start + position) count) =
      chunker.branchNode depth (chunker.window (depth + 1)) path start size index ::
        (chunker.below depth (chunker.window depth) (path ++ [index])
          (start + index * chunker.window (depth + 1))
          (min (chunker.window (depth + 1)) (size - index * chunker.window (depth + 1)))).filter
            fun node => node.Meets
              (start + index * chunker.window (depth + 1) +
                (max position (index * chunker.window (depth + 1)) -
                  index * chunker.window (depth + 1)))
              (min (position + count) (index * chunker.window (depth + 1) +
                  min (chunker.window (depth + 1)) (size - index * chunker.window (depth + 1))) -
                max position (index * chunker.window (depth + 1))) := by
  have wide := window_pos positive (depth + 1)
  have order : position < position + count := Nat.lt_add_of_pos_right nonempty
  obtain ⟨started, some, within⟩ := Bytes.clip_inside wide order inside meets
  rw [List.filter_cons_of_pos]
  · congr 1
    apply List.filter_congr
    intro node member
    have inner := bounds_of_mem_below positive member
    rw [decide_eq_decide]
    simp only [Node.Meets]
    omega
  · rw [decide_eq_true_eq]
    simp only [Node.Meets, branchNode]
    omega

/-- Reading a range comes to the nodes that have something of it, in their order. -/
theorem notes_notedNode (positive : 0 < chunker.chunkSize) (store : Store σ) (depth : Nat)
    (path : List Nat) (start : Nat) (data : Bytes) {size position count : Nat} (nonempty : 0 < count)
    (inside : position + count ≤ size) :
    Action.Notes
      (chunker.notedNode store depth (chunker.window depth) path start data size position count)
      (chunker.readNode store depth (chunker.window depth) data size position count)
      ((chunker.below depth (chunker.window depth) path start size).filter
        fun node => node.Meets (start + position) count) := by
  induction depth generalizing path start data size position count with
  | zero => exact Action.Notes.within _
  | succ depth ih =>
      rw [notedNode]
      by_cases short : size < chunker.window (depth + 1)
      · rw [if_pos short, readNode_of_lt short, below_of_lt path start short, window_succ_div]
        exact ih path start data nonempty inside
      · have full := Nat.le_of_not_lt short
        have wide := window_pos positive (depth + 1)
        have order : position < position + count := Nat.lt_add_of_pos_right nonempty
        rw [if_neg short, readNode_of_le full, below_of_le path start full, List.filter_flatMap,
          window_succ_div]
        by_cases cut : data.size < Header.length +
            ((position + count - 1) / chunker.window (depth + 1) + 1) * chunker.keySize
        · simp only [cut, ↓reduceIte]
          exact Action.Notes.throw _ _
        · simp only [cut, ↓reduceIte]
          have reached : (position + count - 1) / chunker.window (depth + 1) + 1 ≤
              branchCount (chunker.window (depth + 1)) size :=
            (lt_branchCount_iff wide _ _).mpr
              (Nat.lt_of_le_of_lt (Nat.div_mul_le_self _ _) (by omega))
          rw [flatMap_range_eq (Nat.le_succ_of_le (Nat.div_le_div_right
            (by omega : position ≤ position + count - 1))) reached
            fun index apart _ => filter_branch_eq_nil positive apart nonempty]
          refine (Action.Notes.mapM fun index meets => ?_).bind_within fun parts =>
            Action.pure (Bytes.concat parts)
          obtain ⟨started, some, within⟩ := Bytes.clip_inside wide order inside meets
          rw [filter_branch_of_mem positive nonempty inside meets, readBranch, branchNode,
            window_succ_div]
          exact Action.Notes.within_bind _ fun branch =>
            (ih (path ++ [index]) (start + index * chunker.window (depth + 1)) branch some
              within).cons _

/-- Reading a range of a tree comes to its nodes that have something of the range. -/
theorem notes_notedSection (positive : 0 < chunker.chunkSize) (store : Store σ) {root : Root}
    (covered : chunker.shapeOf root.size = .ok root.shape) {position count : Nat}
    (nonempty : 0 < count) (inside : position + count ≤ root.size) :
    Action.Notes ((chunker.notedSection store root).readAt position count)
      ((chunker.sectionOf store root).readAt position count)
      ((chunker.nodes root.shape root.size).filter fun node => node.Meets position count) := by
  obtain ⟨window, -, -⟩ := window_of_shapeOf covered
  have reads := notes_notedNode positive store root.shape.depth [] 0 root.data nonempty inside
  rw [← window, Nat.zero_add] at reads
  have meets : (⟨[], root.shape, 0, root.size⟩ : Node).Meets position count := by
    simp only [Node.Meets]
    omega
  rw [nodes, List.filter_cons_of_pos (by rwa [decide_eq_true_eq])]
  rw [Section.readAt_of_le _ inside, Section.readAt_of_le _ inside, if_neg nonempty.ne',
    if_neg nonempty.ne']
  simp only [notedSection, sectionOf, Section.whole, Nat.zero_add]
  exact reads.cons _

/-- One tree over content of a length: all of its nodes are regular, and have their branches among them; no
two have one path; splitting content of this length comes to all of them, each where the content has it; and
reading comes to those that have something of the range, which are all if the range is all. -/
structure OneTree (chunker : Chunker) (shape : Shape) (size : Nat) : Prop where
  regular : ∀ node ∈ chunker.nodes shape size, chunker.Regular node
  branches : ∀ node ∈ chunker.nodes shape size, 1 ≤ (node.settled chunker.branches).depth →
    ∀ index < branchCount (node.settled chunker.branches).window node.size,
      chunker.branchNode ((node.settled chunker.branches).depth - 1)
        (node.settled chunker.branches).window node.path node.start node.size index ∈
          chunker.nodes shape size
  distinct : ((chunker.nodes shape size).map Node.path).Nodup
  split : ∀ {σ : Type} (collect : Collector σ) (part : Section σ), part.size = size →
    Action.Notes (chunker.notedSplit part collect) (chunker.split part (some collect))
      ((chunker.nodes shape size).map (·.moved part.start))
  read : ∀ {σ : Type} (store : Store σ) (key : Key) (root : Root) (before opened : σ),
    (chunker.openRoot store key).run before = (.ok root, opened) → root.size = size →
    ∀ position count, 0 < count → position + count ≤ size →
      Action.Notes ((chunker.notedSection store root).readAt position count)
        ((chunker.sectionOf store root).readAt position count)
        ((chunker.nodes shape size).filter fun node => node.Meets position count)
  all : 0 < size →
    (chunker.nodes shape size).filter (fun node => node.Meets 0 size) = chunker.nodes shape size

/-- **The shapes that splitting and reading share.**  Content of any length that has a shape has one tree of
nodes, whose windows are exact: splitting it and reading it come to the nodes of this tree, with the shapes
and sections that they have there. -/
theorem oneTree_of_shapeOf (positive : 0 < chunker.chunkSize) {shape : Shape} {size : Nat}
    (covered : chunker.shapeOf size = .ok shape) : OneTree chunker shape size where
  regular := fun node member => regular_of_mem_nodes positive covered member
  branches := fun node member deep index counted => branchNode_mem_nodes member deep counted
  distinct := nodup_path_nodes shape size
  split := by
    rintro σ collect part rfl
    exact notes_notedSplit collect covered
  read := by
    rintro σ store key root before opened got rfl position count nonempty inside
    obtain ⟨-, shaped, -⟩ := run_openRoot_eq_ok_iff.mp got
    obtain rfl : root.shape = shape := Except.ok.inj (shaped.symm.trans covered)
    exact notes_notedSection positive store covered nonempty inside
  all := filter_meets_all positive covered

/-- Five bytes have a root whose levels are dropped to one, with a full leaf and another below it. -/
theorem oneTree_of_shapeOf_five_bytes :
    0 < tiny.chunkSize ∧ tiny.shapeOf 5 = .ok ⟨2, 8⟩ ∧
      tiny.nodes ⟨2, 8⟩ 5 =
        [⟨[], ⟨2, 8⟩, 0, 5⟩, ⟨[0], ⟨0, 2⟩, 0, 4⟩, ⟨[1], ⟨0, 2⟩, 4, 1⟩] ∧
      OneTree tiny ⟨2, 8⟩ 5 := by
  have covered : tiny.shapeOf 5 = .ok ⟨2, 8⟩ := by decide +kernel
  exact ⟨by decide, covered, by decide +kernel, oneTree_of_shapeOf (by decide) covered⟩

end Chunker

end ChunkTree
