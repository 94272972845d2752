import ChunkTree.Proofs.Calls
import ChunkTree.Proofs.Emission
import ChunkTree.Proofs.Endings

/-!
# Reading from hostile stores

A store may answer with anything, and a root may claim any size.  Still no call of the reader leaves
the data that was fetched for it: each asks for a range inside its node, the data has just the length
that goes with the shape of the node, and so do the ranges asked of the branches (`Chunker.Safe`).  All
calls that a read comes to are safe (`Chunker.ends_tracedNode`), so reading fails in a few ways only
(`Chunker.join_from_any_store`).
-/

namespace ChunkTree

variable {σ : Type}

/-- What a reader may find wrong with the answers of a store: there is no chunk, none with data, none
with the right digest, or none of the size and length that go with its place. -/
def Fault.OfReading : Fault → Prop
  | .chunkMissing _ | .noData _ | .digestLength | .integrity _ | .noSizeHeader _
  | .sizeMismatch _ _ _ | .lengthMismatch _ _ _ | .impossibleSize _ _ => True
  | _ => False

/-- Getting some chunk from the store, in some state, ends with this fault. -/
def Store.Fails (store : Store σ) (fault : Fault) : Prop :=
  ∃ key state, ((store.get key).run state).1 = .error fault

namespace Chunker

/-- A branch that a call asks starts and ends inside the node, and its key stands inside the data; the
range asked of it is inside it and not empty; and its size has a length that its data is compared
with. -/
structure SafeBranch (chunker : Chunker) (call : Call) (index : Nat) : Prop where
  started : call.start index < call.size
  ended : call.start index + call.branchSize index ≤ call.size
  keyed : Header.length + (index + 1) * chunker.keySize ≤ call.data.size
  low_of_start : call.start index ≤ call.low index
  low_of_position : call.position ≤ call.low index
  some : call.low index < call.high index
  high_of_size : call.high index ≤ call.start index + call.branchSize index
  high_of_stop : call.high index ≤ call.stop
  laid : ∀ key, ∃ length, chunker.dataLength key (call.branchShape chunker.branches index)
    (call.branchSize index) = .ok length

/-- A call has a shape with no levels left to drop, and a range that is inside the node and not empty.
The data is exactly as long as that of a node of this shape and size, and no number here is more than a
word.  At a leaf the range is inside the data.  At a node there is a key for every branch asked, and the
ranges asked of them tile the range of the call. -/
structure Safe (chunker : Chunker) (call : Call) : Prop where
  shallow : call.shape.depth < 64
  window_eq : call.shape.window = chunker.window call.shape.depth
  filled : call.shape.depth = 0 ∨ call.shape.window ≤ call.size
  reach : call.size ≤ chunker.window (call.shape.depth + 1)
  nonempty : 0 < call.count
  inside : call.stop ≤ call.size
  word : call.size < wordLimit
  length : call.data.size = Header.length + if call.shape.depth = 0 then call.size
    else branchCount call.shape.window call.size * chunker.keySize
  lengthWord : call.data.size < wordLimit
  leaf : call.shape.depth = 0 → Header.length + call.stop ≤ call.data.size
  keyed : call.shape.depth ≠ 0 →
    Header.length + (call.last + 1) * chunker.keySize ≤ call.data.size
  branches : call.shape.depth ≠ 0 → ∀ index ∈ call.asked, chunker.SafeBranch call index
  tiles : call.shape.depth ≠ 0 →
    Tiles call.position (call.asked.map fun index => (call.low index, call.high index)) call.stop

variable {chunker : Chunker}

section Windows

/-- No node has more branches than two to the power of thirty-two: where nodes may have more, windows
are wider than that. -/
theorem branchCount_le_of_word (positive : 0 < chunker.chunkSize) {depth size : Nat}
    (word : size < wordLimit) (reach : size ≤ chunker.window (depth + 2)) :
    branchCount (chunker.window (depth + 1)) size ≤ 4294967296 := by
  have wide := window_pos positive (depth + 1)
  by_cases few : chunker.branches ≤ 4294967296
  · exact Nat.le_trans (branchCount_le_branches positive reach) few
  · have broad : 4294967296 ≤ chunker.window (depth + 1) := by
      rw [window_succ]
      exact Nat.le_trans (Nat.le_of_not_le few)
        (Nat.le_mul_of_pos_left _ (window_pos positive depth))
    rw [branchCount_le_iff wide]
    calc size ≤ 4294967296 * 4294967296 := Nat.le_of_lt word
      _ ≤ 4294967296 * chunker.window (depth + 1) := Nat.mul_le_mul_left _ broad

/-- Only shallow places have windows that are words. -/
theorem depth_lt_of_window (positive : 0 < chunker.chunkSize) {depth : Nat}
    (word : chunker.window depth < wordLimit) : depth < 64 := by
  by_contra deep
  have power : 2 ^ depth ≤ chunker.window depth :=
    calc 2 ^ depth ≤ chunker.branches ^ depth := Nat.pow_le_pow_left chunker.two_le_branches _
      _ ≤ chunker.window depth := Nat.le_mul_of_pos_left _ positive
  have large : 2 ^ 64 ≤ 2 ^ depth := Nat.pow_le_pow_right (by decide) (Nat.le_of_not_lt deep)
  simp only [wordLimit] at word
  omega

/-- Data accepted for a node is as long as a header and one key for every branch, and no shorter for
wrapping around. -/
theorem Fits.size_node (short : chunker.keySize ≤ 65536) (positive : 0 < chunker.chunkSize)
    {key : Key} {data : Bytes} {depth size : Nat}
    (fits : chunker.Fits key data ⟨depth + 1, chunker.window (depth + 1)⟩ size)
    (reach : size ≤ chunker.window (depth + 2)) :
    data.size = Header.length + branchCount (chunker.window (depth + 1)) size * chunker.keySize ∧
      data.size < wordLimit := by
  have count := branchCount_le_of_word positive fits.lt_wordLimit reach
  have keys : branchCount (chunker.window (depth + 1)) size * chunker.keySize ≤
      4294967296 * 65536 := Nat.mul_le_mul count short
  have length := checkLength_eq_ok_iff.mp fits.2
  rw [dataLength, if_neg (Nat.succ_ne_zero depth)] at length
  by_cases outside : branchCount (chunker.window (depth + 1)) size = 0 ∨
      chunker.branches < branchCount (chunker.window (depth + 1)) size
  · simp only [outside, ↓reduceIte] at length
    cases length
  · simp only [outside, ↓reduceIte, Except.ok.injEq, Header.length, wordLimit] at length ⊢
    omega

theorem Fits.size_leaf {key : Key} {data : Bytes} {window size : Nat}
    (fits : chunker.Fits key data ⟨0, window⟩ size) :
    data.size = Header.length + size ∧ data.size < wordLimit := by
  obtain ⟨body, same, sized⟩ := fits.leaf
  have total : data.size = Header.length + size := by
    rw [same, Array.size_append, Header.size_encode, sized]
  have length := checkLength_eq_ok_iff.mp fits.2
  rw [dataLength, if_pos rfl, Except.ok.injEq] at length
  exact ⟨total, length ▸ Nat.mod_lt _ (Nat.zero_lt_succ _)⟩

/-- Whatever is claimed at a place that it can stand at has a length. -/
theorem exists_dataLength (positive : 0 < chunker.chunkSize) {depth size : Nat}
    (reach : size ≤ chunker.window (depth + 1)) (key : Key) :
    ∃ length, chunker.dataLength key
      (Shape.settle chunker.branches size depth (chunker.window depth)) size = .ok length := by
  obtain ⟨lower, -, settled, fills⟩ := chunker.settle_window size depth
  have within := le_window_settle reach
  rw [settled] at within ⊢
  rw [dataLength]
  by_cases leaf : lower = 0
  · exact ⟨_, if_pos leaf⟩
  · have full := fills (Nat.pos_of_ne_zero leaf)
    have wide := window_pos positive lower
    have some : 0 < branchCount (chunker.window lower) size :=
      (lt_branchCount_iff wide 0 size).mpr (by omega)
    have most : branchCount (chunker.window lower) size ≤ chunker.branches :=
      branchCount_le_branches positive within
    simp only [leaf, ↓reduceIte]
    rw [if_neg (by omega)]
    exact ⟨_, rfl⟩

end Windows

section Safety

variable {depth : Nat} {key : Key} {data : Bytes} {size position count : Nat}

/-- A call at a leaf is safe. -/
theorem safe_leaf (fits : chunker.Fits key data ⟨0, chunker.window 0⟩ size)
    (reach : size ≤ chunker.window 1) (nonempty : 0 < count) (inside : position + count ≤ size) :
    chunker.Safe ⟨⟨0, chunker.window 0⟩, data, size, position, count⟩ where
  shallow := Nat.zero_lt_succ _
  window_eq := rfl
  filled := .inl rfl
  reach := reach
  nonempty := nonempty
  inside := inside
  word := fits.lt_wordLimit
  length := fits.size_leaf.1
  lengthWord := fits.size_leaf.2
  leaf _ := fits.size_leaf.1 ▸ Nat.add_le_add_left inside _
  keyed node := absurd rfl node
  branches node := absurd rfl node
  tiles node := absurd rfl node

/-- A call at a node is safe. -/
theorem safe_node (short : chunker.keySize ≤ 65536) (positive : 0 < chunker.chunkSize)
    (fits : chunker.Fits key data ⟨depth + 1, chunker.window (depth + 1)⟩ size)
    (full : chunker.window (depth + 1) ≤ size) (reach : size ≤ chunker.window (depth + 2))
    (nonempty : 0 < count) (inside : position + count ≤ size) :
    chunker.Safe ⟨⟨depth + 1, chunker.window (depth + 1)⟩, data, size, position, count⟩ := by
  have wide := window_pos positive (depth + 1)
  have order : position < position + count := Nat.lt_add_of_pos_right nonempty
  obtain ⟨length, lengthWord⟩ := fits.size_node short positive reach
  have keys : ∀ index, index * chunker.window (depth + 1) < size →
      Header.length + (index + 1) * chunker.keySize ≤ data.size := by
    intro index started
    rw [length]
    exact Nat.add_le_add_left
      (Nat.mul_le_mul_right _ ((lt_branchCount_iff wide index size).mpr started)) _
  refine ⟨?_, rfl, .inr full, reach, nonempty, inside, fits.lt_wordLimit, length, lengthWord,
    fun leaf => absurd leaf (Nat.succ_ne_zero depth), fun _ => keys _ ?_, fun _ index met => ?_,
    fun _ => Call.tiles_asked wide nonempty inside⟩
  · exact depth_lt_of_window positive (Nat.lt_of_le_of_lt full fits.lt_wordLimit)
  · have whole := Nat.div_mul_le_self (position + count - 1) (chunker.window (depth + 1))
    simp only [Call.last, Call.stop]
    omega
  · obtain ⟨started, some, within⟩ := Bytes.clip_inside wide order inside met
    have narrow : min (chunker.window (depth + 1))
        (size - index * chunker.window (depth + 1)) ≤ chunker.window (depth + 1) :=
      min_le_left _ _
    refine ⟨started, ?_, keys index started, le_max_right _ _, le_max_left _ _,
      Nat.lt_of_sub_pos some, min_le_right _ _, min_le_left _ _, fun key => ?_⟩
    · simp only [Call.start, Call.branchSize]
      omega
    · have laid := exists_dataLength positive narrow key
      rw [← window_succ_div chunker depth] at laid
      exact laid

end Safety

section Endings

variable {kind : σ → Prop} {tolerated : Fault → Prop} {store : Store σ}
  (reading : ∀ fault : Fault, fault.OfReading → tolerated fault)

/-- With a length to compare with, a check can only find another length. -/
theorem ofReading_of_checkLength {key : Key} {data : Bytes} {shape : Shape} {size : Nat}
    {fault : Fault} (laid : ∃ length, chunker.dataLength key shape size = .ok length)
    (failed : chunker.checkLength key data shape size = .error fault) : fault.OfReading := by
  obtain ⟨length, laid⟩ := laid
  obtain never | ⟨expected, rfl⟩ := checkLength_eq_error failed
  · rw [laid] at never
    cases never
  · trivial

include reading

theorem ends_fetch_of_any (gets : ∀ key, (store.get key).Ends kind tolerated fun _ => True)
    (key : Key) : (chunker.fetch store key).Ends kind tolerated fun _ => True := by
  refine (gets key).bind ?_
  rintro (_ | ⟨chunkKey, _ | data, size⟩) -
  · exact Action.Ends.throw (reading _ trivial)
  · exact Action.Ends.throw (reading _ trivial)
  · have named : (Action.lift (chunker.keyOf data) : Action σ Key).Ends kind tolerated
        fun _ => True := by
      refine Action.Ends.lift (fun _ _ => trivial) fun fault failed => ?_
      obtain rfl := keyOf_eq_error failed
      exact reading _ trivial
    refine named.bind fun actual _ => ?_
    by_cases same : actual = key
    · simp only [same, ↓reduceIte]
      exact Action.Ends.pure trivial
    · simp only [same, ↓reduceIte]
      exact Action.Ends.throw (reading _ trivial)

theorem ends_fetchBranch_of_any (gets : ∀ key, (store.get key).Ends kind tolerated fun _ => True)
    {key : Key} {shape : Shape} {size : Nat}
    (laid : ∃ length, chunker.dataLength key shape size = .ok length) :
    (chunker.fetchBranch store key shape size).Ends kind tolerated
      fun data => chunker.Fits key data shape size := by
  refine (ends_fetch_of_any reading gets key).bind fun data _ => ?_
  refine Action.Ends.bind (Action.Ends.lift (fun _ checked => accept_eq_ok_iff.mp checked) ?_)
    fun _ fits => Action.Ends.pure fits
  intro fault failed
  obtain rfl | ⟨claimed, rfl⟩ | length := accept_eq_error failed
  · exact reading _ trivial
  · exact reading _ trivial
  · exact reading _ (ofReading_of_checkLength laid length)

theorem ends_openRoot_of_any (positive : 0 < chunker.chunkSize)
    (gets : ∀ key, (store.get key).Ends kind tolerated fun _ => True) (key : Key) :
    (chunker.openRoot store key).Ends kind tolerated fun root =>
      chunker.shapeOf root.size = .ok root.shape ∧
        chunker.Fits key root.data (root.shape.normalize chunker.branches root.size)
          root.size := by
  refine (ends_fetch_of_any reading gets key).bind fun data _ => Action.Ends.lift ?_ ?_
  · intro root made
    obtain ⟨rfl, fits⟩ := rootOf_eq_ok_iff.mp made
    exact fits
  · intro fault failed
    obtain rfl | ⟨size, rfl⟩ | ⟨size, shape, covered, length⟩ := rootOf_eq_error failed
    · exact reading _ trivial
    · exact reading _ trivial
    · have laid := exists_dataLength positive (le_window_succ_of_shapeOf covered) key
      rw [← (window_of_shapeOf covered).1] at laid
      exact reading _ (ofReading_of_checkLength laid length)

end Endings

/-- Nothing but safe calls is noted beside the state. -/
def AllSafe (chunker : Chunker) (state : σ × List Call) : Prop :=
  ∀ call ∈ state.2, chunker.Safe call

theorem ends_note {tolerated : Fault → Prop} {call : Call} (safe : chunker.Safe call) :
    (note call : Action (σ × List Call) Unit).Ends chunker.AllSafe tolerated fun _ => True := by
  rintro ⟨state, calls⟩ all
  refine ⟨fun other member => ?_, trivial⟩
  rcases List.mem_append.mp member with earlier | latest
  · exact all other earlier
  · rw [List.mem_singleton.mp latest]
    exact safe

/-- Parts as long as what a call asks of its branches are together as long as what it asks. -/
theorem Safe.size_concat {call : Call} (safe : chunker.Safe call) (deep : call.shape.depth ≠ 0)
    {parts : List Bytes}
    (sizes : List.Forall₂ (fun index part => part.size = call.high index - call.low index)
      call.asked parts) : (Bytes.concat parts).size = call.count := by
  have each : parts.map Array.size =
      call.asked.map fun index => call.high index - call.low index := by
    rw [← List.forall₂_eq_eq_eq, List.forall₂_map_left_iff, List.forall₂_map_right_iff]
    exact sizes.flip
  have total := (safe.tiles deep).sum
  rw [List.map_map] at total
  have whole : call.stop = call.position + call.count := rfl
  rw [Bytes.size_concat, each]
  exact Nat.add_left_cancel (total.trans whole)

/-- **Every call is safe.** Whatever the store answers, the calls that come out of one for a range
inside an accepted node are all safe, and what is read is as long as the range. -/
theorem ends_tracedNode {tolerated : Fault → Prop} {store : Store σ}
    (reading : ∀ fault : Fault, fault.OfReading → tolerated fault)
    (gets : ∀ key, ((store.within .fst).get key : Action (σ × List Call) _).Ends chunker.AllSafe
      tolerated fun _ => True)
    (short : chunker.keySize ≤ 65536) (positive : 0 < chunker.chunkSize) (depth : Nat) {key : Key}
    {data : Bytes} {size position count : Nat}
    (fits : chunker.Fits key data
      (Shape.settle chunker.branches size depth (chunker.window depth)) size)
    (reach : size ≤ chunker.window (depth + 1)) (nonempty : 0 < count)
    (inside : position + count ≤ size) :
    (chunker.tracedNode store depth (chunker.window depth) data size position count).Ends
      chunker.AllSafe tolerated (·.size = count) := by
  induction depth generalizing key data size position count with
  | zero =>
      have safe := safe_leaf fits reach nonempty inside
      refine (ends_note safe).bind fun _ _ => Action.Ends.pure ?_
      have within : Header.length + (position + count) ≤ data.size := safe.leaf rfl
      rw [Bytes.size_slice]
      omega
  | succ depth ih =>
      rw [tracedNode]
      by_cases less : size < chunker.window (depth + 1)
      · rw [Shape.settle_of_lt less, window_succ_div] at fits
        rw [if_pos less, window_succ_div]
        exact ih fits less.le nonempty inside
      have full := Nat.le_of_not_lt less
      rw [Shape.settle_of_le full] at fits
      have safe := safe_node short positive fits full reach nonempty inside
      have deep := Nat.succ_ne_zero depth
      rw [if_neg less]
      refine (ends_note safe).bind fun _ _ => ?_
      rw [if_neg (Nat.not_lt_of_le (safe.keyed deep))]
      refine Action.Ends.bind (Action.Ends.mapM_forall₂ fun index met => ?_) fun parts sizes =>
        Action.Ends.pure (safe.size_concat deep sizes)
      obtain ⟨started, ended, -, low, -, some, high, -, laid⟩ := safe.branches deep index met
      refine (ends_fetchBranch_of_any reading gets (laid _)).bind fun held accepted => ?_
      rw [Call.branchShape, window_succ_div] at accepted
      rw [window_succ_div]
      exact ih accepted (min_le_left _ _) (Nat.sub_pos_of_lt some) (by omega)

/-- **Reading from any store is safe.** Whatever a store answers, whatever root is asked for, and
whatever size the root claims: opening a tree and reading a range inside any slice of it fail only
with the store, or for a chunk that is not there, has no data or the wrong digest, or has not the size
and length that go with its place.  All calls for nodes that a read comes to are safe, and it gives as
many bytes as are asked for. -/
theorem join_from_any_store (short : chunker.keySize ≤ 65536) (positive : chunker.chunkSize ≠ 0)
    (store : Store σ) (key : Key) :
    (chunker.join store key).Ends (fun _ => True)
      (fun fault => fault.OfReading ∨ store.Fails fault) fun part =>
        ∃ root, part = chunker.sectionOf store root ∧
          ∀ ranges view, part.cut ranges = .ok view →
            ∃ traced, (chunker.tracedSection store root).cut ranges = .ok traced ∧
              ∀ position count, position + count ≤ view.size → ∀ before, ∃ outcome after calls,
                (view.readAt position count).run before = (outcome, after) ∧
                (traced.readAt position count).run (before, []) = (outcome, after, calls) ∧
                (∀ call ∈ calls, chunker.Safe call) ∧
                match outcome with
                | .ok bytes => bytes.size = count
                | .error fault => fault.OfReading ∨ store.Fails fault := by
  have positive := Nat.pos_of_ne_zero positive
  have gets : ∀ key, (store.get key).Ends (fun _ => True)
      (fun fault => fault.OfReading ∨ store.Fails fault) fun _ => True := by
    intro key state _
    refine ⟨trivial, ?_⟩
    rcases got : ((store.get key).run state).1 with fault | answer
    · exact .inr ⟨key, state, got⟩
    · trivial
  have getsBeside : ∀ key, ((store.within .fst).get key : Action (σ × List Call) _).Ends
      chunker.AllSafe (fun fault => fault.OfReading ∨ store.Fails fault) fun _ => True :=
    fun key state all => ⟨all, (gets key state.1 trivial).2⟩
  refine (ends_openRoot_of_any (fun _ => .inl) positive gets key).bind fun root opened =>
    Action.Ends.pure ⟨root, rfl, fun ranges view sliced => ?_⟩
  obtain ⟨covered, fits⟩ := opened
  obtain ⟨traced, cut, related⟩ := (relates_tracedSection root).cut sliced
  refine ⟨traced, cut, fun position count inside before => ?_⟩
  obtain ⟨calls, ran⟩ := related.readAt Action.Records.compatible position count before []
  have ends : (traced.readAt position count).Ends chunker.AllSafe
      (fun fault => fault.OfReading ∨ store.Fails fault) (·.size = count) := by
    rw [← related.size_eq] at inside
    obtain ⟨same, within⟩ := Section.eq_of_cut_eq_ok cut
    have within : Section.offset ranges + traced.size ≤ root.size := within
    rw [Section.readAt_of_le _ inside]
    by_cases empty : count = 0
    · rw [if_pos empty]
      exact Action.Ends.pure empty.symm
    · rw [if_neg empty, same]
      obtain ⟨window, reach, -⟩ := window_of_shapeOf covered
      simp only [Shape.normalize] at fits
      simp only [tracedSection, Section.whole, Nat.zero_add]
      rw [window] at fits ⊢
      exact ends_tracedNode (fun _ => .inl) getsBeside short positive root.shape.depth fits
        (le_window_succ_of_shapeOf covered) (Nat.pos_of_ne_zero empty) (by omega)
  have last := ends (before, []) fun _ never => absurd never List.not_mem_nil
  rw [ran] at last
  rcases read : (view.readAt position count).run before with ⟨outcome, after⟩
  rw [read] at ran last
  obtain ⟨safe, answered⟩ := last
  refine ⟨outcome, after, calls, rfl, ran, safe, ?_⟩
  cases outcome with
  | ok bytes => exact answered
  | error fault => exact answered

/-- A root claims as many bytes as the widest window covers, in a tree of two branches to a node.  It
opens; and a read of the last of these bytes asks for one chunk, which is not there. -/
theorem join_from_store_with_vast_root :
    ∃ part calls, (tiny.join Store.scripted ⟨#[135]⟩).run
          [⟨⟨#[135]⟩, some #[0, 0, 0, 0, 0, 0, 0, 128, 7], 0⟩] = (.ok part, []) ∧
      (part.readAt 9223372036854775807 1).run [] = (.error (.chunkMissing ⟨#[7]⟩), []) ∧
      ∃ root, ((tiny.tracedSection Store.scripted root).readAt 9223372036854775807 1).run ([], []) =
          (.error (.chunkMissing ⟨#[7]⟩), [], calls) ∧ ∀ call ∈ calls, tiny.Safe call := by
  have opened : (tiny.openRoot Store.scripted ⟨#[135]⟩).run
        [⟨⟨#[135]⟩, some #[0, 0, 0, 0, 0, 0, 0, 128, 7], 0⟩] =
      (.ok ⟨#[0, 0, 0, 0, 0, 0, 0, 128, 7], 9223372036854775808, ⟨62, 9223372036854775808⟩⟩,
        []) := by
    decide +kernel
  have joined := run_join_eq_ok_iff.mpr ⟨_, opened, rfl⟩
  have missing : ((tiny.sectionOf Store.scripted ⟨#[0, 0, 0, 0, 0, 0, 0, 128, 7],
        9223372036854775808, ⟨62, 9223372036854775808⟩⟩).readAt 9223372036854775807 1).run [] =
      (.error (.chunkMissing ⟨#[7]⟩), []) := by
    decide +kernel
  have ends := join_from_any_store (by decide : tiny.keySize ≤ 65536) (by decide) Store.scripted
    ⟨#[135]⟩ [⟨⟨#[135]⟩, some #[0, 0, 0, 0, 0, 0, 0, 128, 7], 0⟩] trivial
  rw [joined] at ends
  obtain ⟨-, root, same, reads⟩ := ends
  obtain ⟨traced, cut, reads⟩ := reads [] _ rfl
  cases cut
  have inside : 9223372036854775807 + 1 ≤ (9223372036854775808 : Nat) := by decide
  obtain ⟨outcome, after, calls, read, ran, safe, -⟩ := reads 9223372036854775807 1 inside []
  rw [missing] at read
  cases read
  exact ⟨_, calls, joined, missing, root, ran, safe⟩

end Chunker

end ChunkTree
