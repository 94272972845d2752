import ChunkTree.Proofs.Transcript

/-!
# The calls of a reader

On its way down a tree the reader calls itself for a range of every node that it comes to.  A reader
that notes these calls beside the state (`Chunker.tracedNode`) runs as the reader does
(`Chunker.records_tracedNode`).  What a call asks of the branches of its node are ranges that follow
each other from the start of its own to the end (`Call.tiles_asked`).
-/

namespace ChunkTree

variable {σ : Type}

/-- A call of the reader for a range of the content under a node: the shape of the node, after levels
have been dropped, its data and size, and the range. -/
structure Call where
  shape : Shape
  data : Bytes
  size : Nat
  position : Nat
  count : Nat

namespace Call

variable (call : Call)

/-- The position behind the range. -/
def stop : Nat := call.position + call.count

/-- Where a branch starts. -/
def start (index : Nat) : Nat := index * call.shape.window

/-- The size of a branch. -/
def branchSize (index : Nat) : Nat := min call.shape.window (call.size - call.start index)

/-- Where what is asked of a branch starts. -/
def low (index : Nat) : Nat := max call.position (call.start index)

/-- Where what is asked of a branch stops. -/
def high (index : Nat) : Nat := min call.stop (call.start index + call.branchSize index)

/-- The first branch that is asked. -/
def first : Nat := call.position / call.shape.window

/-- The last branch that is asked. -/
def last : Nat := (call.stop - 1) / call.shape.window

/-- The branches that are asked, from left to right. -/
def asked : List Nat := List.range' call.first (call.last + 1 - call.first)

/-- The shape that a branch has before levels are dropped, which depends on its size. -/
def branchShape (branches index : Nat) : Shape :=
  .settle branches (call.branchSize index) (call.shape.depth - 1) (call.shape.window / branches)

end Call

/-- The ranges follow each other from one position to another, and none is empty. -/
def Tiles : (low : Nat) → List (Nat × Nat) → (high : Nat) → Prop
  | low, [], high => low = high
  | low, (start, stop) :: rest, high => start = low ∧ start < stop ∧ Tiles stop rest high

/-- Cuts that grow tile what is between the first and the last. -/
theorem tiles_cuts (cut : Nat → Nat) (count : Nat)
    (grows : ∀ index < count, cut index < cut (index + 1)) :
    Tiles (cut 0) ((List.range count).map fun index => (cut index, cut (index + 1)))
      (cut count) := by
  induction count generalizing cut with
  | zero => rfl
  | succ count ih =>
      rw [List.range_succ_eq_map, List.map_cons, List.map_map]
      refine ⟨rfl, grows 0 (Nat.succ_pos count), ?_⟩
      exact ih (cut ∘ Nat.succ) fun index inside => grows (index + 1) (Nat.succ_lt_succ inside)

/-- Ranges that tile something are together as long as it. -/
theorem Tiles.sum {low high : Nat} {ranges : List (Nat × Nat)} (tiles : Tiles low ranges high) :
    low + (ranges.map fun range => range.2 - range.1).sum = high := by
  induction ranges generalizing low with
  | nil => exact tiles
  | cons range rest ih =>
      obtain ⟨rfl, some, tiles⟩ := tiles
      have others := ih tiles
      rw [List.map_cons, List.sum_cons]
      omega

/-- The ranges that a call asks of branches tile its own. -/
theorem Call.tiles_asked {call : Call} (wide : 0 < call.shape.window) (nonempty : 0 < call.count)
    (inside : call.stop ≤ call.size) :
    Tiles call.position (call.asked.map fun index => (call.low index, call.high index))
      call.stop := by
  have order : call.position < call.stop := Nat.lt_add_of_pos_right nonempty
  have clips : ∀ index < call.last + 1 - call.first,
      call.low (call.first + index) =
          Bytes.cutAt call.shape.window call.position call.stop index ∧
        call.high (call.first + index) =
          Bytes.cutAt call.shape.window call.position call.stop (index + 1) :=
    fun index counted => Bytes.clip_eq_cutAt wide order inside counted
  have same : call.asked.map (fun index => (call.low index, call.high index)) =
      (List.range (call.last + 1 - call.first)).map fun index =>
        (Bytes.cutAt call.shape.window call.position call.stop index,
          Bytes.cutAt call.shape.window call.position call.stop (index + 1)) := by
    rw [Call.asked, List.range'_eq_map_range, List.map_map]
    apply List.map_congr_left
    intro index counted
    obtain ⟨low, high⟩ := clips index (List.mem_range.mp counted)
    exact Prod.ext low high
  have last : Bytes.cutAt call.shape.window call.position call.stop
      (call.last + 1 - call.first) = call.stop :=
    Bytes.cutAt_last wide order
  have cuts := tiles_cuts (Bytes.cutAt call.shape.window call.position call.stop)
    (call.last + 1 - call.first) fun index counted => by
      obtain ⟨low, high⟩ := clips index counted
      have met : call.first + index ∈ call.asked :=
        List.mem_range'_1.mpr ⟨Nat.le_add_right _ _, Nat.add_lt_add_left counted _⟩
      rw [← low, ← high]
      exact Nat.lt_of_sub_pos (Bytes.clip_inside wide order inside met).2.1
  rw [Bytes.cutAt_zero, last] at cuts
  rw [same]
  exact cuts

namespace Chunker

variable {chunker : Chunker}

/-- Notes a call beside the state. -/
def note (call : Call) : Action (σ × List Call) Unit :=
  .update fun (state, calls) => (state, calls ++ [call])

variable (chunker) (store : Store σ)

/-- Reads as `readNode` does, and notes each call, as soon as no levels are left to drop. -/
def tracedNode : (depth window : Nat) → (data : Bytes) → (size position count : Nat) →
    Action (σ × List Call) Bytes
  | 0, window, data, size, position, count => do
    note ⟨⟨0, window⟩, data, size, position, count⟩
    return data.slice (Header.length + position) count
  | depth + 1, window, data, size, position, count =>
    if size < window then
      tracedNode depth (window / chunker.branches) data size position count
    else do
      let call : Call := ⟨⟨depth + 1, window⟩, data, size, position, count⟩
      note call
      if data.size < Header.length + (call.last + 1) * chunker.keySize then
        throw (.noBranchKey data.size call.last)
      else
        let parts ← call.asked.mapM fun index => do
          let branch ← chunker.fetchBranch (store.within .fst) (chunker.branchKey data index)
            (call.branchShape chunker.branches index) (call.branchSize index)
          tracedNode depth (window / chunker.branches) branch (call.branchSize index)
            (call.low index - call.start index) (call.high index - call.low index)
        return Bytes.concat parts

/-- The content under a root, read with notes. -/
def tracedSection (root : Root) : Section (σ × List Call) :=
  .whole (chunker.tracedNode store root.shape.depth root.shape.window root.data root.size) root.size

variable {chunker store}

theorem records_note {α : Type} {traced : Action (σ × List Call) α} {action : Action σ α}
    (records : Action.Records traced action) (call : Call) :
    Action.Records (do note call; traced) action := by
  intro state calls
  obtain ⟨more, ran⟩ := records state (calls ++ [call])
  refine ⟨call :: more, ?_⟩
  rw [← List.singleton_append, ← List.append_assoc]
  exact ran

theorem records_within (key : Key) :
    Action.Records (((store.within .fst).get key : Action (σ × List Call) _)) (store.get key) :=
  fun state calls => ⟨[], by rw [List.append_nil]; rfl⟩

/-- Noting its calls changes nothing that the reader does. -/
theorem records_tracedNode (depth window : Nat) (data : Bytes) (size position count : Nat) :
    Action.Records (chunker.tracedNode store depth window data size position count)
      (chunker.readNode store depth window data size position count) := by
  have compatible := @Action.Records.compatible σ Call
  induction depth generalizing window data size position count with
  | zero => exact records_note (compatible.pure _) _
  | succ depth ih =>
      rw [tracedNode]
      by_cases short : size < window
      · rw [if_pos short, readNode_of_lt short]
        exact ih _ _ _ _ _
      · rw [if_neg short, readNode_of_le (Nat.le_of_not_lt short)]
        apply records_note
        by_cases cut : data.size <
            Header.length + ((position + count - 1) / window + 1) * chunker.keySize
        · simp only [Call.last, Call.stop, cut, ↓reduceIte]
          exact compatible.throw _
        · simp only [Call.last, Call.stop, cut, ↓reduceIte]
          refine compatible.bind (compatible.mapM fun index _ => ?_) fun parts =>
            compatible.pure _
          exact compatible.bind (relates_fetchBranch compatible records_within _ _ _)
            fun branch => ih _ _ _ _ _

theorem relates_tracedSection (root : Root) :
    Section.Relates (fun _ => Action.Records) (chunker.tracedSection store root)
      (chunker.sectionOf store root) :=
  ⟨rfl, rfl, records_tracedNode _ _ _ _⟩

end Chunker

end ChunkTree
