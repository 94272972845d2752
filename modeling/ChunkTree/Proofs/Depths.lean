import ChunkTree.Proofs.Branching
import Mathlib.Data.Nat.Find
import Mathlib.Order.Bounds.Defs
import Mathlib.Tactic.IntervalCases

/-!
# How deep a tree is

Levels are added to a tree until its window reaches the end of the content, and the next window is
compared with the largest word by a division, before there is such a window.  Still no window is
refused that a word can hold, and none wraps around: the depth is the least whose window, as a number
of any length, reaches as far (`Shape.cover_of_isLeast`), and content is refused exactly if that
window is not a word (`Chunker.shape_of_least_depth`).
-/

namespace ChunkTree

variable {σ : Type}

namespace Shape

/-- How levels are added, turn by turn, where windows are words and a product of them may wrap
around.  No rule says that windows grow, so none says that there is a last turn. -/
inductive Climbs (branches size : Nat) : Shape → Except Fault Shape → Prop
  | reached {shape : Shape} (reach : size ≤ shape.window) : Climbs branches size shape (.ok shape)
  | refused {shape : Shape} (short : shape.window < size)
      (large : (wordLimit - 1) / branches < shape.window) :
      Climbs branches size shape (.error .tooLarge)
  | climbed {shape : Shape} {outcome : Except Fault Shape} (short : shape.window < size)
      (fits : shape.window ≤ (wordLimit - 1) / branches)
      (next : Climbs branches size ⟨shape.depth + 1, shape.window * branches % wordLimit⟩ outcome) :
      Climbs branches size shape outcome

variable {branches size : Nat}

/-- A window that is not empty grows with every level. -/
theorem lt_mul_branches (two : 2 ≤ branches) {window : Nat} (positive : 0 < window) :
    window < window * branches :=
  (Nat.lt_mul_iff_one_lt_right positive).mpr two

/-- Windows that are not empty grow, and no product of them wraps around, so there is a last turn. -/
theorem climbs_cover (two : 2 ≤ branches) {start : Shape} (positive : 0 < start.window) :
    Climbs branches size start (cover branches size start) := by
  fun_induction cover branches size start with
  | case1 start short large => exact .refused short large
  | case2 start short fits grows ih =>
      have word := (le_div_iff_mul_lt_wordLimit two _).mp (Nat.le_of_not_lt fits)
      refine .climbed short (Nat.le_of_not_lt fits) ?_
      rw [Nat.mod_eq_of_lt word]
      exact ih (Nat.lt_trans positive grows)
  | case3 start short fits stays => exact absurd (lt_mul_branches two positive) stays
  | case4 start reaches => exact .reached (Nat.le_of_not_lt reaches)

/-- The turns have one outcome at most. -/
theorem Climbs.unique {start : Shape} {first second : Except Fault Shape}
    (climbs : Climbs branches size start first) (other : Climbs branches size start second) :
    first = second := by
  induction climbs with
  | reached reach =>
      cases other with
      | reached _ => rfl
      | refused short _ => omega
      | climbed short _ _ => omega
  | refused short large =>
      cases other with
      | reached _ => omega
      | refused _ _ => rfl
      | climbed _ fits _ => omega
  | climbed short fits _ ih =>
      cases other with
      | reached _ => omega
      | refused _ large => omega
      | climbed _ _ next => exact ih next

/-- There is a least depth whose window reaches as far as the size. -/
theorem exists_isLeast_depth (two : 2 ≤ branches) {window : Nat} (positive : 0 < window)
    (size : Nat) : ∃ depth, IsLeast {depth | size ≤ window * branches ^ depth} depth := by
  have some : ∃ depth, size ≤ window * branches ^ depth := by
    refine ⟨size, ?_⟩
    calc size ≤ branches ^ size := (Nat.lt_pow_self two).le
      _ ≤ window * branches ^ size := Nat.le_mul_of_pos_left _ positive
  exact ⟨Nat.find some, Nat.find_spec some, fun depth reach => Nat.find_min' some reach⟩

/-- A shape whose window does not reach as far is less deep. -/
private theorem succ_le_of_isLeast {window depth : Nat}
    (least : IsLeast {depth | size ≤ window * branches ^ depth} depth) {start : Shape}
    (exact : start.window = window * branches ^ start.depth) (short : start.window < size)
    (below : start.depth ≤ depth) : start.depth + 1 ≤ depth := by
  refine Nat.lt_of_le_of_ne below fun same => ?_
  have reach : size ≤ window * branches ^ depth := least.1
  rw [exact, same] at short
  omega

variable (branches) in
/-- The shape of a depth over chunks of some size, if its window is a word. -/
def ofDepth (chunk depth : Nat) : Except Fault Shape :=
  if chunk * branches ^ depth < wordLimit then .ok ⟨depth, chunk * branches ^ depth⟩
  else .error .tooLarge

/-- **Levels are added up to the least depth.** On the way there the turns meet the exact windows of
the depths, so they end with the window of the least depth, or are refused if this is not a word. -/
theorem cover_of_isLeast (two : 2 ≤ branches) {window depth : Nat} (positive : 0 < window)
    (least : IsLeast {depth | size ≤ window * branches ^ depth} depth) {start : Shape}
    (exact : start.window = window * branches ^ start.depth) (word : start.window < wordLimit)
    (below : start.depth ≤ depth) :
    cover branches size start = ofDepth branches window depth := by
  unfold ofDepth
  have next (level : Nat) :
      window * branches ^ (level + 1) = window * branches ^ level * branches := by
    rw [Nat.pow_succ, Nat.mul_assoc]
  fun_induction cover branches size start with
  | case1 start short large =>
      have deeper := succ_le_of_isLeast least exact short below
      have wide : wordLimit ≤ window * branches ^ (start.depth + 1) := by
        rw [next, ← exact, ← Nat.not_lt, ← le_div_iff_mul_lt_wordLimit two]
        exact Nat.not_le_of_lt large
      have wider : window * branches ^ (start.depth + 1) ≤ window * branches ^ depth :=
        Nat.mul_le_mul_left _ (Nat.pow_le_pow_right (by omega) deeper)
      rw [if_neg (Nat.not_lt_of_le (Nat.le_trans wide wider))]
  | case2 start short fits grows ih =>
      apply ih
      · rw [next, exact]
      · exact (le_div_iff_mul_lt_wordLimit two _).mp (Nat.le_of_not_lt fits)
      · exact succ_le_of_isLeast least exact short below
  | case3 start short fits stays =>
      have filled : 0 < start.window := by
        rw [exact]
        exact Nat.mul_pos positive (Nat.pow_pos (by omega))
      exact absurd (lt_mul_branches two filled) stays
  | case4 start reaches =>
      have reach : size ≤ window * branches ^ start.depth := by
        rw [← exact]
        exact Nat.le_of_not_lt reaches
      obtain rfl : start.depth = depth := Nat.le_antisymm below (least.2 reach)
      rw [← exact, if_pos word]

end Shape

namespace Chunker

variable {chunker : Chunker}

variable {part : Section σ} {collect : Collector σ}

/-- Chunks that are handed over have keys of one length, so only another length is a fault here. -/
theorem avoids_emit {fault : Fault} (apart : fault ≠ .digestLength)
    (collects : ∀ chunk, (collect chunk).Avoids fault) (size : Nat) (body : Bytes) :
    (chunker.emit collect size body).Avoids fault := by
  refine (Action.Avoids.lift ?_).bind fun key => (collects _).bind fun _ => ?_
  · intro failed
    exact apart (keyOf_eq_error failed)
  · exact Action.Avoids.lift (by simp)

/-- Whatever the shape of a place, splitting there only finds what its source and its collector find,
and keys of another length. -/
theorem avoids_splitAt {fault : Fault} (apart : fault ≠ .digestLength)
    (reads : ∀ start count, (part.source start count).Avoids fault)
    (collects : ∀ chunk, (collect chunk).Avoids fault) (depth window : Nat) :
    (chunker.splitAt collect depth window part).Avoids fault := by
  induction depth generalizing window part with
  | zero =>
      refine Action.Avoids.bind ?_ fun content => avoids_emit apart collects _ _
      rw [Section.readAll, Section.readAt_of_le _ (Nat.zero_add _).le]
      by_cases empty : part.size = 0
      · rw [if_pos empty]
        exact Action.Avoids.lift (by simp)
      · rw [if_neg empty]
        exact reads _ _
  | succ depth ih =>
      rw [splitAt]
      by_cases short : part.size < window
      · rw [if_pos short]
        exact ih reads _
      · rw [if_neg short]
        refine Action.Avoids.bind ?_ fun keys => avoids_emit apart collects _ _
        refine Action.Avoids.mapM fun index _ => ?_
        -- A branch asks the source of the whole.
        have same : (part.branch window index).source = part.source := rfl
        exact ih (same ▸ reads) _

/-- Content that no shape covers is refused before any of it is read. -/
theorem split_of_shapeOf_eq_error {fault : Fault}
    (uncovered : chunker.shapeOf part.size = .error fault) :
    chunker.split part (some collect) = throw fault := by
  rw [split, uncovered]
  rfl

theorem avoids_split {shape : Shape} (covered : chunker.shapeOf part.size = .ok shape)
    (reads : ∀ start count, (part.source start count).Avoids .tooLarge)
    (collects : ∀ chunk, (collect chunk).Avoids .tooLarge) :
    (chunker.split part (some collect)).Avoids .tooLarge := by
  rw [split, covered]
  exact avoids_splitAt (by decide) reads collects _ _

/-- A root that claims more than any shape covers is fetched, and refused for its size. -/
theorem run_join_of_shapeOf_eq_error {store : Store σ} {key : Key} {before after : σ}
    {data : Bytes} (fetched : (chunker.fetch store key).run before = (.ok data, after))
    {claimed : UInt64} (states : Header.decode data = .ok claimed) {fault : Fault}
    (uncovered : chunker.shapeOf claimed.toNat = .error fault) :
    (chunker.join store key).run before =
      (.error (.impossibleSize key claimed.toNat), after) := by
  have refused : chunker.rootOf key data = .error (.impossibleSize key claimed.toNat) := by
    simp only [rootOf, states, bind, Except.bind, uncovered]
    rfl
  rw [join, Action.run_bind, openRoot, Action.run_bind, fetched]
  simp only [refused, Action.run_lift]

/-- **Depths are exact up to the largest word.** For every branching factor, chunk size and size there
is a least depth whose window, as a number of any length, reaches as far.  Adding levels in words ends
with the shape of this depth, or is refused if its window is not a word.  In that case, and in no
other, a chunker refuses to split so much, before anything is read or handed over; and a stored root
that has its key and claims as much is malformed. -/
theorem shape_of_least_depth {branches chunkSize : Nat} (two : 2 ≤ branches)
    (positive : 0 < chunkSize) (word : chunkSize < wordLimit) (size : Nat) :
    ∃ depth, IsLeast {depth | size ≤ chunkSize * branches ^ depth} depth ∧
      (∀ outcome, Shape.Climbs branches size ⟨0, chunkSize⟩ outcome ↔
        outcome = Shape.ofDepth branches chunkSize depth) ∧
      ∀ chunker : Chunker, chunker.branches = branches → chunker.chunkSize = chunkSize →
        chunker.shapeOf size = Shape.ofDepth branches chunkSize depth ∧
        (∀ (part : Section σ) (collect : Collector σ), part.size = size →
          (wordLimit ≤ chunkSize * branches ^ depth →
            chunker.split part (some collect) = throw .tooLarge) ∧
          (chunkSize * branches ^ depth < wordLimit →
            (∀ start count, (part.source start count).Avoids .tooLarge) →
            (∀ chunk, (collect chunk).Avoids .tooLarge) →
            (chunker.split part (some collect)).Avoids .tooLarge)) ∧
        ∀ (store : Store σ) (key : Key) (before after : σ) (chunk : Chunk) (data : Bytes)
          (claimed : UInt64), wordLimit ≤ chunkSize * branches ^ depth →
          (store.get key).run before = (.ok (some chunk), after) → chunk.data = some data →
          chunker.keyOf data = .ok key → Header.decode data = .ok claimed → claimed.toNat = size →
          (chunker.join store key).run before = (.error (.impossibleSize key size), after) ∧
            Fault.Malformed (.impossibleSize key size) := by
  obtain ⟨depth, least⟩ := Shape.exists_isLeast_depth two positive size
  have covered : Shape.cover branches size ⟨0, chunkSize⟩ =
      Shape.ofDepth branches chunkSize depth :=
    Shape.cover_of_isLeast two positive least (by simp) word (Nat.zero_le depth)
  have climbs : Shape.Climbs branches size ⟨0, chunkSize⟩
      (Shape.ofDepth branches chunkSize depth) :=
    covered ▸ Shape.climbs_cover two positive
  refine ⟨depth, least, fun outcome => ?_, ?_⟩
  · constructor
    · intro other
      exact other.unique climbs
    · rintro rfl
      exact climbs
  rintro chunker rfl rfl
  refine ⟨covered, fun part collect sized => ⟨fun wide => ?_, fun narrow reads collects => ?_⟩, ?_⟩
  · have refused : chunker.shapeOf part.size = .error .tooLarge := by
      rw [sized, shapeOf, covered, Shape.ofDepth, if_neg (Nat.not_lt_of_le wide)]
    exact split_of_shapeOf_eq_error refused
  · have shaped : chunker.shapeOf part.size =
        .ok ⟨depth, chunker.chunkSize * chunker.branches ^ depth⟩ := by
      rw [sized, shapeOf, covered, Shape.ofDepth, if_pos narrow]
    exact avoids_split shaped reads collects
  · rintro store key before after chunk data claimed wide got holds named states rfl
    have fetched : (chunker.fetch store key).run before = (.ok data, after) :=
      run_fetch_eq_ok_iff.mpr ⟨⟨chunk, got, holds⟩, named⟩
    have refused : chunker.shapeOf claimed.toNat = .error .tooLarge := by
      rw [shapeOf, covered, Shape.ofDepth, if_neg (Nat.not_lt_of_le wide)]
    exact ⟨run_join_of_shapeOf_eq_error fetched states refused, trivial⟩

/-- With two branches to a node and chunks of two bytes, five bytes take two levels.  A root that claims
one byte more than the largest window covers is malformed. -/
theorem shape_of_least_depth_with_two_branches :
    tiny.shapeOf 5 = .ok ⟨2, 8⟩ ∧
      (tiny.join Store.scripted ⟨#[129]⟩).run
          [⟨⟨#[129]⟩, some #[1, 0, 0, 0, 0, 0, 0, 128], 0⟩] =
        (.error (.impossibleSize ⟨#[129]⟩ 9223372036854775809), []) := by
  constructor
  · obtain ⟨depth, ⟨reach, below⟩, -, each⟩ :=
      @shape_of_least_depth Unit 2 2 (by decide) (by decide) (by decide) 5
    have most : depth ≤ 2 := below (by decide : 5 ≤ 2 * 2 ^ 2)
    have same : depth = 2 := by
      interval_cases depth
      · exact absurd reach (by decide)
      · exact absurd reach (by decide)
      · rfl
    rw [(each tiny rfl rfl).1, same]
    decide
  · obtain ⟨depth, ⟨reach, -⟩, -, each⟩ :=
      @shape_of_least_depth (List Chunk) 2 2 (by decide) (by decide) (by decide)
        9223372036854775809
    have wide : wordLimit ≤ 2 * 2 ^ depth := by
      by_contra narrow
      have least : 63 ≤ depth := by
        by_contra shallow
        have reach : 9223372036854775809 ≤ 2 * 2 ^ depth := reach
        have short : 2 ^ depth ≤ 2 ^ 62 := Nat.pow_le_pow_right (by decide) (by omega)
        omega
      have long : 2 ^ 63 ≤ 2 ^ depth := Nat.pow_le_pow_right (by decide) least
      simp only [wordLimit] at narrow
      omega
    exact ((each tiny rfl rfl).2.2 Store.scripted ⟨#[129]⟩ _ [] _ _ 9223372036854775809 wide rfl
      rfl (by decide) (by decide) (by decide)).1

end Chunker

end ChunkTree
