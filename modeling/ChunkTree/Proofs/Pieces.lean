import ChunkTree.Shape
import Mathlib.Algebra.Order.Ring.Nat
import Mathlib.Data.Nat.Basic
import Mathlib.Order.Monotone.Basic

/-!
# Runs of bytes in pieces

A width cuts a run of bytes into pieces, all of that width but for the last, which may be shorter
(`Bytes.pieces`).  The pieces put together again are the run (`Bytes.concat_pieces`), and parts that
are as long as pieces have to be are the pieces of what they make (`Bytes.pieces_concat`).  A range
of the run is what its pieces have of it (`Bytes.concat_extract_cuts`).
-/

namespace ChunkTree

section BranchCount

variable {window : Nat}

@[simp]
theorem branchCount_zero : branchCount window 0 = 0 := by
  simp [branchCount]

/-- The last position of a size lies in the last window counted. -/
theorem branchCount_succ (size : Nat) :
    branchCount window (size + 1) = size / window + 1 := by
  unfold branchCount
  rw [Nat.succ_div]
  by_cases exact : window ∣ size + 1
  · rw [if_pos exact, if_pos (Nat.mod_eq_zero_of_dvd exact), Nat.add_zero]
  · rw [if_neg exact, if_neg fun zero => exact (Nat.dvd_of_mod_eq_zero zero), Nat.add_zero]

/-- A window is counted exactly when it starts inside the size. -/
theorem lt_branchCount_iff (positive : 0 < window) (index size : Nat) :
    index < branchCount window size ↔ index * window < size := by
  cases size with
  | zero => simp
  | succ size =>
      rw [branchCount_succ, Nat.lt_succ_iff, Nat.le_div_iff_mul_le positive,
        Nat.lt_succ_iff]

/-- A window that is counted starts inside the size, even one that is empty. -/
theorem mul_lt_of_lt_branchCount {index size : Nat} (counted : index < branchCount window size) :
    index * window < size := by
  by_cases positive : 0 < window
  · exact (lt_branchCount_iff positive index size).mp counted
  · obtain rfl : window = 0 := Nat.eq_zero_of_not_pos positive
    rw [branchCount, Nat.div_zero, Nat.zero_add, Nat.mod_zero] at counted
    rw [Nat.mul_zero]
    by_contra empty
    rw [if_pos (Nat.eq_zero_of_not_pos empty)] at counted
    exact Nat.not_lt_zero _ counted

/-- Some windows reach the end of the size exactly when no more are counted. -/
theorem branchCount_le_iff (positive : 0 < window) (count size : Nat) :
    branchCount window size ≤ count ↔ size ≤ count * window := by
  rw [← not_iff_not, Nat.not_le, Nat.not_le]
  exact lt_branchCount_iff positive count size

theorem branchCount_mul (positive : 0 < window) (count : Nat) :
    branchCount window (count * window) = count := by
  rw [branchCount, Nat.mul_div_cancel _ positive, Nat.mul_mod_left, if_pos rfl, Nat.add_zero]

/-- A size that fills a window is counted in a single one only if it has no more. -/
theorem branchCount_eq_one_iff (positive : 0 < window) {size : Nat} (full : window ≤ size) :
    branchCount window size = 1 ↔ size = window := by
  have some := (lt_branchCount_iff positive 0 size).mpr (by omega)
  have single := branchCount_le_iff positive 1 size
  omega

/-- The first window leaves what the others are counted in. -/
theorem branchCount_of_pos (positive : 0 < window) {size : Nat} (nonempty : 0 < size) :
    branchCount window size = branchCount window (size - window) + 1 := by
  obtain ⟨size, rfl⟩ := Nat.exists_eq_succ_of_ne_zero nonempty.ne'
  rw [Nat.succ_eq_add_one, branchCount_succ]
  by_cases more : window ≤ size
  · rw [Nat.succ_sub more, branchCount_succ, Nat.div_eq_sub_div positive more]
  · rw [Nat.sub_eq_zero_of_le (Nat.lt_of_not_le more), branchCount_zero,
      Nat.div_eq_of_lt (Nat.lt_of_not_le more)]

/-- Full windows are counted before what comes after them. -/
theorem branchCount_mul_add (positive : 0 < window) (count size : Nat) :
    branchCount window (count * window + size) = count + branchCount window size := by
  induction count with
  | zero => rw [Nat.zero_mul, Nat.zero_add, Nat.zero_add]
  | succ count ih =>
      have first : (count + 1) * window + size - window = count * window + size := by
        rw [Nat.succ_mul]
        omega
      have nonempty : 0 < (count + 1) * window + size := by
        rw [Nat.succ_mul]
        omega
      rw [branchCount_of_pos positive nonempty, first, ih, Nat.add_right_comm]

end BranchCount

namespace Bytes

@[simp]
theorem concat_nil : concat [] = #[] := rfl

private theorem foldl_append (start : Bytes) (parts : List Bytes) :
    parts.foldl (· ++ ·) start = start ++ concat parts := by
  induction parts generalizing start with
  | nil => simp
  | cons part rest ih =>
      rw [concat, List.foldl_cons, List.foldl_cons, ih, ih (#[] ++ part)]
      simp

@[simp]
theorem concat_cons (part : Bytes) (rest : List Bytes) :
    concat (part :: rest) = part ++ concat rest := by
  rw [concat, List.foldl_cons, foldl_append]
  simp

@[simp]
theorem concat_append (first second : List Bytes) :
    concat (first ++ second) = concat first ++ concat second := by
  induction first with
  | nil => simp
  | cons part rest ih => simp [ih]

theorem size_concat (parts : List Bytes) :
    (concat parts).size = (parts.map Array.size).sum := by
  induction parts with
  | nil => rfl
  | cons part rest ih => rw [concat_cons, Array.size_append, ih, List.map_cons, List.sum_cons]

theorem size_slice (bytes : Bytes) (start count : Nat) :
    (bytes.slice start count).size = min count (bytes.size - start) := by
  simp only [slice, Array.size_extract]
  omega

@[simp]
theorem slice_zero (bytes : Bytes) (start : Nat) : bytes.slice start 0 = #[] := by
  rw [slice, Nat.add_zero, Array.extract_empty_of_stop_le_start le_rfl]

theorem slice_append_right (head body : Bytes) (start count : Nat) :
    (head ++ body).slice (head.size + start) count = body.slice start count := by
  rw [slice, slice, Array.extract_append, Array.extract_empty_of_size_le_start (by omega),
    Array.empty_append]
  congr 1 <;> omega

theorem slice_append_left (head body : Bytes) {start count : Nat}
    (inside : start + count ≤ head.size) : (head ++ body).slice start count = head.slice start count := by
  rw [slice, slice, Array.extract_append, Nat.sub_eq_zero_of_le inside,
    Array.extract_empty_of_stop_le_start (Nat.zero_le _), Array.append_empty]

/-- A slice of a slice is a slice of the whole. -/
theorem slice_slice (bytes : Bytes) {start width inner count : Nat}
    (inside : inner + count ≤ width) :
    (bytes.slice start width).slice inner count = bytes.slice (start + inner) count := by
  rw [slice, slice, slice, Array.extract_extract]
  congr 1
  omega

/-- Two slices, one where the other ends, make one. -/
theorem slice_append_slice (bytes : Bytes) (start count more : Nat) :
    bytes.slice start count ++ bytes.slice (start + count) more =
      bytes.slice start (count + more) := by
  rw [slice, slice, slice, Array.extract_append_extract]
  congr 1 <;> omega

/-- Ranges between cuts, one after the other, make the range from the first cut to the last. -/
theorem concat_extract_cuts (bytes : Bytes) {cut : Nat → Nat} (monotone : Monotone cut)
    (count : Nat) :
    concat ((List.range count).map fun index => bytes.extract (cut index) (cut (index + 1))) =
      bytes.extract (cut 0) (cut count) := by
  induction count with
  | zero => simp
  | succ count ih =>
      rw [List.range_succ, List.map_append, concat_append, ih]
      simp only [List.map_cons, List.map_nil, concat_cons, concat_nil, Array.append_empty,
        Array.extract_append_extract]
      rw [Nat.min_eq_left (monotone (Nat.zero_le count)),
        Nat.max_eq_right (monotone (Nat.le_succ count))]

/-- The piece at an index of a run that a width cuts. -/
def piece (width : Nat) (bytes : Bytes) (index : Nat) : Bytes := bytes.slice (index * width) width

/-- The pieces that a width cuts a run into. -/
def pieces (width : Nat) (bytes : Bytes) : List Bytes :=
  (List.range (branchCount width bytes.size)).map (bytes.piece width)

theorem size_piece (width : Nat) (bytes : Bytes) (index : Nat) :
    (bytes.piece width index).size = min width (bytes.size - index * width) :=
  size_slice bytes (index * width) width

/-- A slice of a piece is a slice of the run. -/
theorem slice_piece {width : Nat} (bytes : Bytes) {index start count : Nat}
    (inside : start + count ≤ width) :
    (bytes.piece width index).slice start count = bytes.slice (index * width + start) count :=
  slice_slice bytes inside

variable {width : Nat}

/-- A full piece stays as it is whatever comes behind the run. -/
theorem piece_append_left {first : Bytes} (second : Bytes) {index : Nat}
    (full : (index + 1) * width ≤ first.size) :
    (first ++ second).piece width index = first.piece width index := by
  rw [Nat.succ_mul] at full
  rw [piece, piece, slice, slice, Array.extract_append, Nat.sub_eq_zero_of_le full,
    Array.extract_empty_of_stop_le_start (Nat.zero_le _), Array.append_empty]

/-- What stands behind one full piece is the next, if it is not longer. -/
theorem piece_append_one {head bytes : Bytes} (full : head.size = width)
    (short : bytes.size ≤ width) : (head ++ bytes).piece width 1 = bytes := by
  have behind := slice_append_right head bytes 0 width
  rw [Nat.add_zero, full] at behind
  rw [piece, Nat.one_mul, behind, slice, Nat.zero_add]
  exact Array.extract_eq_self_of_le short

@[simp]
theorem length_pieces (bytes : Bytes) :
    (pieces width bytes).length = branchCount width bytes.size := by
  simp [pieces]

theorem piece_mem_pieces {bytes : Bytes} {index : Nat}
    (counted : index < branchCount width bytes.size) :
    bytes.piece width index ∈ pieces width bytes :=
  List.mem_map_of_mem (List.mem_range.mpr counted)

theorem size_le_of_mem_pieces {bytes piece : Bytes} (member : piece ∈ pieces width bytes) :
    piece.size ≤ width ∧ piece.size ≤ bytes.size := by
  obtain ⟨index, -, rfl⟩ := List.mem_map.mp member
  rw [size_piece]
  omega

theorem pos_size_of_mem_pieces (positive : 0 < width) {bytes piece : Bytes}
    (member : piece ∈ pieces width bytes) : 0 < piece.size := by
  obtain ⟨index, counted, rfl⟩ := List.mem_map.mp member
  have started := (lt_branchCount_iff positive index bytes.size).mp (List.mem_range.mp counted)
  rw [size_piece]
  omega

/-- The pieces put together again are the run. -/
theorem concat_pieces (positive : 0 < width) (bytes : Bytes) :
    concat (pieces width bytes) = bytes := by
  have whole := (branchCount_le_iff positive _ bytes.size).mp le_rfl
  have cuts := concat_extract_cuts bytes
    (fun _ _ order => Nat.mul_le_mul_right width order : Monotone fun index => index * width)
    (branchCount width bytes.size)
  simp only [Nat.zero_mul, Nat.succ_mul] at cuts
  exact cuts.trans (Array.extract_eq_self_of_le whole)

/-- Parts of one width, but for the last, which may be shorter. -/
inductive Tiled (width : Nat) : List Bytes → Prop
  | nil : Tiled width []
  | last (part : Bytes) (nonempty : 0 < part.size) (short : part.size ≤ width) : Tiled width [part]
  | cons (part : Bytes) (rest : List Bytes) (full : part.size = width) (tiled : Tiled width rest) :
      Tiled width (part :: rest)

/-- Parts tile a width if they are as long as the pieces of a run of some size have to be. -/
theorem tiled_of_sizes (positive : 0 < width) {parts : List Bytes} {size : Nat}
    (count : parts.length = branchCount width size)
    (sizes : ∀ index (inside : index < parts.length),
      parts[index].size = min width (size - index * width)) :
    Tiled width parts ∧ (concat parts).size = size := by
  induction parts generalizing size with
  | nil =>
      have none := (branchCount_le_iff positive 0 size).mp count.symm.le
      exact ⟨.nil, by simp only [concat_nil, Array.size_empty]; omega⟩
  | cons part rest ih =>
      have nonempty : 0 < size := by
        have counted : 0 < branchCount width size := count ▸ Nat.succ_pos _
        simpa using (lt_branchCount_iff positive 0 size).mp counted
      have first : part.size = min width size := by simpa using sizes 0 (Nat.succ_pos _)
      rw [branchCount_of_pos positive nonempty, List.length_cons] at count
      obtain ⟨tiled, total⟩ := ih (Nat.succ.inj count) fun index inside => by
        have next := sizes (index + 1) (Nat.succ_lt_succ inside)
        rw [List.getElem_cons_succ] at next
        rw [next, Nat.succ_mul]
        congr 1
        omega
      refine ⟨?_, by rw [concat_cons, Array.size_append, total]; omega⟩
      cases rest with
      | nil => exact .last part (by omega) (by omega)
      | cons other others =>
          refine .cons part _ ?_ tiled
          have more := (lt_branchCount_iff positive 0 (size - width)).mp
            (Nat.succ.inj count ▸ Nat.succ_pos _)
          omega

/-- The first piece of a run, and the pieces of the rest. -/
theorem pieces_of_nonempty (positive : 0 < width) {bytes : Bytes} (nonempty : 0 < bytes.size) :
    pieces width bytes = bytes.slice 0 width :: pieces width (bytes.extract width bytes.size) := by
  have rest : (bytes.extract width bytes.size).size = bytes.size - width := by
    rw [Array.size_extract, Nat.min_self]
  rw [pieces, pieces, rest, branchCount_of_pos positive nonempty, List.range_succ_eq_map,
    List.map_cons, List.map_map, piece, Nat.zero_mul]
  congr 1
  apply List.map_congr_left
  intro index _
  rw [Function.comp_apply, piece, piece, slice, slice, Array.extract_extract, Nat.succ_mul,
    Nat.add_comm (index * width) width, Array.extract_eq_extract_right]
  omega

/-- A run that is no longer than one piece is its only piece. -/
theorem pieces_of_le (positive : 0 < width) {bytes : Bytes} (nonempty : 0 < bytes.size)
    (short : bytes.size ≤ width) : pieces width bytes = [bytes] := by
  rw [pieces_of_nonempty positive nonempty, slice, Nat.zero_add,
    Array.extract_eq_self_of_le short, Array.extract_empty_of_size_le_start short]
  simp [pieces]

/-- A run cut where a piece ends has the pieces of both its parts. -/
theorem pieces_append (positive : 0 < width) {first : Bytes} (whole : width ∣ first.size)
    (second : Bytes) :
    pieces width (first ++ second) = pieces width first ++ pieces width second := by
  obtain ⟨count, size⟩ := whole
  rw [Nat.mul_comm] at size
  rw [pieces, pieces, pieces, Array.size_append, size, branchCount_mul_add positive,
    branchCount_mul positive, List.range_add, List.map_append, List.map_map]
  congr 1
  · apply List.map_congr_left
    intro index counted
    refine piece_append_left second ?_
    rw [size]
    exact Nat.mul_le_mul_right _ (List.mem_range.mp counted)
  · apply List.map_congr_left
    intro index _
    rw [Function.comp_apply, piece, piece, Nat.add_mul, ← size, slice_append_right]

/-- The pieces of wide pieces are the pieces of the run, if none reaches over the end of a wide
one. -/
theorem flatMap_pieces (positive : 0 < width) {wide : Nat} (some : 0 < wide)
    (multiple : width ∣ wide) (bytes : Bytes) :
    (pieces wide bytes).flatMap (pieces width) = pieces width bytes := by
  induction size : bytes.size using Nat.strong_induction_on generalizing bytes with
  | h size ih =>
      subst size
      rcases Nat.eq_zero_or_pos bytes.size with empty | nonempty
      · simp [pieces, empty]
      by_cases short : bytes.size ≤ wide
      · rw [pieces_of_le some nonempty short, List.flatMap_singleton]
      · have first : (bytes.slice 0 wide).size = wide := by
          rw [size_slice]
          omega
        have rest : (bytes.extract wide bytes.size).size < bytes.size := by
          rw [Array.size_extract]
          omega
        have both : bytes.slice 0 wide ++ bytes.extract wide bytes.size = bytes := by
          rw [slice, Nat.zero_add, Array.extract_append_extract, Nat.min_eq_left (Nat.zero_le _),
            Nat.max_eq_right (by omega), Array.extract_size]
        rw [pieces_of_nonempty some nonempty, List.flatMap_cons, ih _ rest _ rfl,
          ← pieces_append positive (first.symm ▸ multiple), both]

/-- Parts that tile a width are the pieces of the run they make. -/
theorem pieces_concat (positive : 0 < width) {parts : List Bytes} (tiled : Tiled width parts) :
    pieces width (concat parts) = parts := by
  induction tiled with
  | nil => simp [pieces]
  | last part nonempty short =>
      rw [concat_cons, concat_nil, Array.append_empty, pieces_of_le positive nonempty short]
  | cons part rest full _ ih =>
      have first : (part ++ concat rest).slice 0 width = part := by
        rw [slice, Nat.zero_add, ← full]
        simp
      have others : (part ++ concat rest).extract width (part ++ concat rest).size =
          concat rest := by
        rw [← full]
        simp
      rw [concat_cons, pieces_of_nonempty positive (by rw [Array.size_append]; omega), first,
        others, ih]

theorem tiled_of_blocks {blocks : List Bytes} (sizes : ∀ block ∈ blocks, block.size = width) :
    Tiled width blocks := by
  induction blocks with
  | nil => exact .nil
  | cons block rest ih =>
      exact .cons block rest (sizes block List.mem_cons_self)
        (ih fun other member => sizes other (List.mem_cons_of_mem _ member))

/-- A block is found in what the blocks make at its place. -/
theorem piece_concat_blocks (positive : 0 < width) {blocks : List Bytes}
    (sizes : ∀ block ∈ blocks, block.size = width) {index : Nat} (inside : index < blocks.length) :
    (concat blocks).piece width index = blocks[index] := by
  have same := pieces_concat positive (tiled_of_blocks sizes)
  have counted : index < branchCount width (concat blocks).size := by
    rw [← length_pieces, same]
    exact inside
  conv_rhs => rw [List.getElem_of_eq same.symm inside]
  simp [pieces]

theorem size_concat_blocks {blocks : List Bytes} (sizes : ∀ block ∈ blocks, block.size = width) :
    (concat blocks).size = blocks.length * width := by
  induction blocks with
  | nil => simp
  | cons block rest ih =>
      rw [concat_cons, Array.size_append, sizes block List.mem_cons_self,
        ih fun other member => sizes other (List.mem_cons_of_mem _ member), List.length_cons,
        Nat.succ_mul, Nat.add_comm]

/-- Blocks of one size are told apart by what they make. -/
theorem blocks_eq_of_concat_eq (positive : 0 < width) {first second : List Bytes}
    (firstSizes : ∀ block ∈ first, block.size = width)
    (secondSizes : ∀ block ∈ second, block.size = width) (same : concat first = concat second) :
    first = second := by
  rw [← pieces_concat positive (tiled_of_blocks firstSizes), same,
    pieces_concat positive (tiled_of_blocks secondSizes)]

/-- A range starts before the end of every piece that it meets, and ends after its start. -/
private theorem bounds_of_meets (positive : 0 < width) {position stop index : Nat}
    (nonempty : position < stop)
    (meets : index ∈ List.range' (position / width) ((stop - 1) / width + 1 - position / width)) :
    index * width < stop ∧ position < index * width + width := by
  obtain ⟨first, last⟩ := List.mem_range'_1.mp meets
  have started : index * width ≤ (stop - 1) / width * width :=
    Nat.mul_le_mul_right width (by omega)
  have whole := Nat.div_mul_le_self (stop - 1) width
  have order := Nat.mul_le_mul_right width first
  have next := Nat.lt_div_mul_add (a := position) positive
  constructor
  · omega
  · omega

/-- What a range has of a piece, and be it the last, ends where the range or a full piece does. -/
private theorem clip_stop {start stop size : Nat} (started : start < stop) (inside : stop ≤ size) :
    min stop (start + min width (size - start)) = min stop (start + width) := by
  omega

/-- A range has something of every piece that it meets, and has it inside the piece. -/
theorem clip_inside (positive : 0 < width) {position stop size index : Nat}
    (nonempty : position < stop) (inside : stop ≤ size)
    (meets : index ∈ List.range' (position / width) ((stop - 1) / width + 1 - position / width)) :
    index * width < size ∧
      0 < min stop (index * width + min width (size - index * width))
          - max position (index * width) ∧
      max position (index * width) - index * width +
          (min stop (index * width + min width (size - index * width))
            - max position (index * width)) ≤ min width (size - index * width) := by
  obtain ⟨started, reached⟩ := bounds_of_meets positive nonempty meets
  rw [clip_stop started inside]
  have order : max position (index * width) < min stop (index * width + width) :=
    max_lt (lt_min nonempty reached) (lt_min started (Nat.lt_add_of_pos_right positive))
  have least : index * width ≤ max position (index * width) := le_max_right _ _
  have most : min stop (index * width + width) ≤ stop := min_le_left _ _
  have full : min stop (index * width + width) ≤ index * width + width := min_le_right _ _
  refine ⟨Nat.lt_of_lt_of_le started inside, Nat.sub_pos_of_lt order, le_min ?_ ?_⟩
  · omega
  · omega

/-- Where pieces cut a range: at its start, where each piece but the first that it meets starts, and
at its end. -/
def cutAt (width position stop index : Nat) : Nat :=
  max position (min stop ((position / width + index) * width))

theorem monotone_cutAt (width position stop : Nat) : Monotone (cutAt width position stop) :=
  fun _ _ later => max_le_max le_rfl (min_le_min le_rfl
    (Nat.mul_le_mul_right width (Nat.add_le_add_left later _)))

theorem cutAt_zero (width position stop : Nat) : cutAt width position stop 0 = position := by
  rw [cutAt, Nat.add_zero]
  exact max_eq_left (Nat.le_trans (min_le_right _ _) (Nat.div_mul_le_self position width))

/-- The last of the pieces that a range meets reaches its end. -/
theorem cutAt_last (positive : 0 < width) {position stop : Nat} (nonempty : position < stop) :
    cutAt width position stop ((stop - 1) / width + 1 - position / width) = stop := by
  have order : position / width ≤ (stop - 1) / width :=
    Nat.div_le_div_right (Nat.le_sub_one_of_lt nonempty)
  have reached : stop ≤ ((stop - 1) / width + 1) * width := by
    have next := Nat.lt_div_mul_add (a := stop - 1) positive
    rw [Nat.succ_mul]
    omega
  rw [cutAt, Nat.add_sub_cancel' (Nat.le_succ_of_le order), min_eq_left reached,
    max_eq_right nonempty.le]

/-- What a range has of a piece lies between two cuts. -/
theorem clip_eq_cutAt (positive : 0 < width) {position stop size index : Nat}
    (nonempty : position < stop) (inside : stop ≤ size)
    (counted : index < (stop - 1) / width + 1 - position / width) :
    max position ((position / width + index) * width) = cutAt width position stop index ∧
      min stop ((position / width + index) * width +
          min width (size - (position / width + index) * width)) =
        cutAt width position stop (index + 1) := by
  have meets : position / width + index ∈
      List.range' (position / width) ((stop - 1) / width + 1 - position / width) :=
    List.mem_range'_1.mpr ⟨Nat.le_add_right _ _, Nat.add_lt_add_left counted _⟩
  obtain ⟨started, reached⟩ := bounds_of_meets positive nonempty meets
  constructor
  · rw [cutAt, min_eq_right started.le]
  · have next : (position / width + (index + 1)) * width =
        (position / width + index) * width + width := by
      rw [← Nat.add_assoc, Nat.succ_mul]
    rw [clip_stop started inside, cutAt, next, max_eq_right (le_min nonempty.le reached.le)]

/-- What a range has of the pieces that it meets makes the range. -/
theorem concat_clips (positive : 0 < width) (bytes : Bytes) {position stop : Nat}
    (nonempty : position < stop) (inside : stop ≤ bytes.size) :
    concat ((List.range' (position / width) ((stop - 1) / width + 1 - position / width)).map
      fun index => (bytes.piece width index).slice (max position (index * width) - index * width)
        (min stop (index * width + min width (bytes.size - index * width))
          - max position (index * width))) =
      bytes.slice position (stop - position) := by
  have cuts := concat_extract_cuts bytes (monotone_cutAt width position stop)
    ((stop - 1) / width + 1 - position / width)
  rw [cutAt_zero, cutAt_last positive nonempty] at cuts
  rw [slice, Nat.add_sub_cancel' nonempty.le, ← cuts, List.range'_eq_map_range, List.map_map]
  congr 1
  apply List.map_congr_left
  intro index counted
  have meets : position / width + index ∈
      List.range' (position / width) ((stop - 1) / width + 1 - position / width) := by
    rw [List.range'_eq_map_range]
    exact List.mem_map_of_mem counted
  have within := (clip_inside positive nonempty inside meets).2.2
  have order := monotone_cutAt width position stop (Nat.le_succ index)
  obtain ⟨low, high⟩ := clip_eq_cutAt positive nonempty inside (List.mem_range.mp counted)
  rw [Function.comp_apply, slice_piece _ (Nat.le_trans within (min_le_left _ _)), slice,
    Nat.add_sub_cancel' (le_max_right _ _), low, high, Nat.add_sub_cancel' order]

end Bytes

end ChunkTree
