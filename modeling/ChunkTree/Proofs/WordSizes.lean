import ChunkTree.Proofs.Depths
import ChunkTree.Proofs.Streaming
import Mathlib.Logic.Relation

/-!
# Sizes that words hold

The chunk size and the piece size are products that are formed in words, and a chunker is made whatever
they come to.  The chunk size is where levels start from, and the piece size is how far the writing of
content goes in one turn.  Levels are added, and content is written, to an end exactly if these words
are not zero (`Shape.climbs_cover`, `Archive.writes_writeOut`): from an empty window no level makes a
larger one, and an empty piece brings the writing no further.
-/

namespace ChunkTree

variable {σ : Type}

theorem wordLimit_pos : 0 < wordLimit := by decide

/-- A product in words is the product itself exactly if that is a word. -/
theorem mod_wordLimit_eq_iff {product : Nat} : product % wordLimit = product ↔ product < wordLimit :=
  ⟨fun same => same ▸ Nat.mod_lt _ wordLimit_pos, Nat.mod_eq_of_lt⟩

namespace Shape

/-- One turn of adding levels: the window does not reach as far as the size, and is multiplied in
words. -/
structure Turn (branches size : Nat) (shape next : Shape) : Prop where
  short : shape.window < size
  fits : shape.window ≤ (wordLimit - 1) / branches
  next_eq : next = ⟨shape.depth + 1, shape.window * branches % wordLimit⟩

variable {branches size : Nat} {start shape next : Shape}

/-- A turn makes a window larger that is not empty. -/
theorem Turn.grows (two : 2 ≤ branches) (turn : Turn branches size shape next)
    (positive : 0 < shape.window) : shape.window < next.window := by
  have word := (le_div_iff_mul_lt_wordLimit two _).mp turn.fits
  rw [turn.next_eq, Nat.mod_eq_of_lt word]
  exact lt_mul_branches two positive

/-- Windows that are reached from one that is not empty are not empty. -/
theorem window_pos_of_turns (two : 2 ≤ branches) (positive : 0 < start.window)
    (turns : Relation.ReflTransGen (Turn branches size) start shape) : 0 < shape.window := by
  induction turns with
  | refl => exact positive
  | tail _ turn ih => exact Nat.lt_trans ih (turn.grows two ih)

/-- From an empty window, adding levels has no outcome. -/
theorem not_climbs_of_window_eq_zero (empty : start.window = 0) (some : 0 < size)
    (outcome : Except Fault Shape) : ¬ Climbs branches size start outcome := by
  intro climbs
  induction climbs with
  | reached reach => omega
  | refused short large =>
      rw [empty] at large
      exact Nat.not_lt_zero _ large
  | @climbed shape _ short fits next ih =>
      apply ih
      rw [empty, Nat.zero_mul, Nat.zero_mod]

end Shape

namespace Archive

/-- A turn of writing a section: reads the piece at a position and hands it to the output. -/
def writePiece (part : Section σ) (sink : Sink σ) (width position : Nat) : Action σ Bool := do
  sink (← part.readAt position (min width (part.size - position)))

/-- How a section is written from a position on, turn by turn.  No rule says that the position moves,
so none says that there is a last turn. -/
inductive Writes (part : Section σ) (sink : Sink σ) (width : Nat) :
    Nat → σ → Except Fault Nat × σ → Prop
  | done {position : Nat} {state : σ} (reached : part.size ≤ position) :
      Writes part sink width position state (.ok position, state)
  | failed {position : Nat} {state after : σ} {fault : Fault} (short : position < part.size)
      (piece : (writePiece part sink width position).run state = (.error fault, after)) :
      Writes part sink width position state (.error fault, after)
  | refused {position : Nat} {state after : σ} (short : position < part.size)
      (piece : (writePiece part sink width position).run state = (.ok false, after)) :
      Writes part sink width position state (.error .outputFailed, after)
  | written {position : Nat} {state after : σ} {outcome : Except Fault Nat × σ}
      (short : position < part.size)
      (piece : (writePiece part sink width position).run state = (.ok true, after))
      (next : Writes part sink width (position + min width (part.size - position)) after outcome) :
      Writes part sink width position state outcome

variable {part : Section σ} {sink : Sink σ} {width : Nat}

theorem copy_succ (part : Section σ) (sink : Sink σ) (width pieces position : Nat) :
    copy part sink width (pieces + 1) position = (do
      if ← writePiece part sink width position then
        copy part sink width pieces (position + min width (part.size - position))
      else throw .outputFailed) := by
  rw [copy, writePiece, bind_assoc]

/-- With pieces that are not empty, what is left is written in as many turns as there are pieces. -/
theorem writes_copy (wide : 0 < width) {pieces position : Nat}
    (left : branchCount width (part.size - position) = pieces) (state : σ) :
    Writes part sink width position state
      ((copy part sink width pieces position).run state) := by
  induction pieces generalizing position state with
  | zero =>
      have done := (branchCount_le_iff wide 0 _).mp (Nat.le_of_eq left)
      exact .done (by omega)
  | succ pieces ih =>
      obtain ⟨some, later⟩ := branchCount_behind wide left
      have short : position < part.size := Nat.lt_of_sub_pos some
      rw [copy_succ, Action.run_bind]
      rcases piece : (writePiece part sink width position).run state with ⟨fault | accepted, after⟩
      · exact .failed short piece
      cases accepted with
      | false => exact .refused short piece
      | true =>
          rw [Nat.sub_sub] at later
          exact .written short piece (ih later after)

/-- From an empty piece the writing goes on as before, if an output takes nothing at all times. -/
theorem not_writes_of_width_eq_zero (takes : ∀ state, ∃ after, (sink #[]).run state = (.ok true, after))
    {position : Nat} (short : position < part.size) (state : σ) (outcome : Except Fault Nat × σ) :
    ¬ Writes part sink 0 position state outcome := by
  intro writes
  have nothing (state : σ) : ∃ after,
      (writePiece part sink 0 position).run state = (.ok true, after) := by
    obtain ⟨after, taken⟩ := takes state
    refine ⟨after, ?_⟩
    rw [writePiece, Nat.zero_min, Section.readAt_of_le _ short.le, if_pos rfl, Action.run_bind]
    exact taken
  generalize same : position = reached at writes
  induction writes with
  | done behind => omega
  | @failed _ state _ _ _ piece =>
      subst same
      obtain ⟨after, taken⟩ := nothing state
      cases taken.symm.trans piece
  | @refused _ state _ _ piece =>
      subst same
      obtain ⟨after, taken⟩ := nothing state
      cases taken.symm.trans piece
  | written _ _ _ ih =>
      apply ih
      rw [Nat.zero_min, Nat.add_zero, same]

/-- What is left of a section gets smaller with every turn, and writing all of it has an outcome. -/
structure Ends (archive : Archive σ) (part : Section σ) (sink : Sink σ) : Prop where
  advances : ∀ position, position < part.size →
    position < position + min (archive.pieceOf part) (part.size - position)
  writes : ∀ state, Writes part sink (archive.pieceOf part) 0 state
    ((archive.writeOut part sink).run state)

/-- Pieces as long as a word that is not zero write a section to its end. -/
theorem ends_of_pieceSize_pos {archive : Archive σ} (positive : 0 < archive.chunker.pieceSize)
    (part : Section σ) (sink : Sink σ) : archive.Ends part sink := by
  have wide (position : Nat) (short : position < part.size) : 0 < archive.pieceOf part :=
    Nat.lt_min.mpr ⟨positive, Nat.zero_lt_of_lt short⟩
  refine ⟨fun position short => ?_, fun state => ?_⟩
  · have := wide position short
    omega
  by_cases empty : part.size = 0
  · have none : archive.pieceOf part = 0 := by rw [pieceOf, empty, Nat.min_zero]
    rw [writeOut, none, empty, branchCount_zero]
    exact .done empty.le
  · exact writes_copy (wide 0 (Nat.pos_of_ne_zero empty)) (by rw [Nat.sub_zero]) state

end Archive

namespace Chunker

/-- For content of a size, every turn of adding levels makes the window larger, and the turns have an
outcome. -/
structure Climbs (chunker : Chunker) (size : Nat) : Prop where
  grows : ∀ shape next,
    Relation.ReflTransGen (Shape.Turn chunker.branches size) ⟨0, chunker.chunkSize⟩ shape →
    Shape.Turn chunker.branches size shape next → shape.window < next.window
  climbs : Shape.Climbs chunker.branches size ⟨0, chunker.chunkSize⟩ (chunker.shapeOf size)

/-- Chunks as long as a word that is not zero are a window to start from. -/
theorem climbs_of_chunkSize_pos {chunker : Chunker} (positive : 0 < chunker.chunkSize) (size : Nat) :
    chunker.Climbs size where
  grows _ _ turns turn :=
    turn.grows chunker.two_le_branches
      (Shape.window_pos_of_turns chunker.two_le_branches positive turns)
  climbs := Shape.climbs_cover chunker.two_le_branches positive

/-- What is made is the chunker with that hasher and so many branches, if there is one. -/
theorem new_eq_ok_iff {branches : Nat} {hasher : Hasher} {chunker : Chunker} :
    new branches (some hasher) = .ok chunker ↔
      chunker.branches = branches ∧ chunker.hasher = hasher := by
  rcases chunker with ⟨_, _, two, positive⟩
  unfold new
  constructor
  · intro made
    simp only at made
    split at made
    · cases made
    split at made
    · cases made
    · cases made
      exact ⟨rfl, rfl⟩
  · intro ⟨same, alike⟩
    subst same alike
    simp only
    rw [dif_neg positive.ne', dif_neg (Nat.not_lt_of_le two)]

/-- A chunker is made of every hasher whose digests are not empty, with any two branches or more. -/
theorem exists_new_eq_ok_iff {branches : Nat} {hasher : Hasher} :
    (∃ chunker, new branches (some hasher) = .ok chunker) ↔ 0 < hasher.digestLength ∧ 2 ≤ branches := by
  constructor
  · intro ⟨chunker, made⟩
    obtain ⟨rfl, rfl⟩ := new_eq_ok_iff.mp made
    exact ⟨chunker.digestLength_pos, chunker.two_le_branches⟩
  · intro ⟨positive, two⟩
    exact ⟨⟨branches, hasher, two, positive⟩, new_eq_ok_iff.mpr ⟨rfl, rfl⟩⟩

/-- **Sizes are exact as long as words hold them, and nothing refuses the others.** A chunker is made of
every hasher whose digests are not empty, with any two branches or more.  Its chunk size is the product
of the key size and the branches exactly if that product is a word, and its piece size the product of
the chunk size and the branches exactly if that one is; both are then one byte at least.  Levels are
added to an end for content of every size if the chunk size is not zero, and for none but empty content
if it is.  Every section is written to an end if the piece size is not zero; and if it is, none but an
empty one is, to an output that takes nothing at all times. -/
theorem sizes_of_new {branches : Nat} {hasher : Hasher} :
    ((∃ chunker, new branches (some hasher) = .ok chunker) ↔
      0 < hasher.digestLength ∧ 2 ≤ branches) ∧
    ∀ chunker, new branches (some hasher) = .ok chunker →
      (chunker.chunkSize = chunker.keySize * branches ↔
        chunker.keySize * branches < wordLimit) ∧
      (chunker.chunkSize = 0 ↔ wordLimit ∣ chunker.keySize * branches) ∧
      (chunker.pieceSize = chunker.chunkSize * branches ↔
        chunker.chunkSize * branches < wordLimit) ∧
      (chunker.pieceSize = 0 ↔ wordLimit ∣ chunker.chunkSize * branches) ∧
      (chunker.keySize * branches < wordLimit → 1 ≤ chunker.chunkSize) ∧
      (chunker.keySize * branches * branches < wordLimit → 1 ≤ chunker.pieceSize) ∧
      (1 ≤ chunker.chunkSize → ∀ size, chunker.Climbs size) ∧
      (chunker.chunkSize = 0 → ∀ size, 0 < size → ∀ outcome,
        ¬ Shape.Climbs branches size ⟨0, chunker.chunkSize⟩ outcome) ∧
      ∀ {σ : Type} (archive : Archive σ) (part : Section σ) (sink : Sink σ),
        archive.chunker = chunker →
        (1 ≤ chunker.pieceSize → archive.Ends part sink) ∧
        (chunker.pieceSize = 0 → 0 < part.size →
          (∀ state, ∃ after, (sink #[]).run state = (.ok true, after)) → ∀ state outcome,
            ¬ Archive.Writes part sink (archive.pieceOf part) 0 state outcome) := by
  refine ⟨exists_new_eq_ok_iff, fun chunker made => ?_⟩
  obtain ⟨rfl, rfl⟩ := new_eq_ok_iff.mp made
  have branched : 0 < chunker.branches := Nat.zero_lt_of_lt chunker.two_le_branches
  have product : 0 < chunker.keySize * chunker.branches :=
    Nat.mul_pos chunker.digestLength_pos branched
  have exact : chunker.keySize * chunker.branches < wordLimit →
      chunker.chunkSize = chunker.keySize * chunker.branches := mod_wordLimit_eq_iff.mpr
  refine ⟨mod_wordLimit_eq_iff, Nat.dvd_iff_mod_eq_zero.symm, mod_wordLimit_eq_iff,
    Nat.dvd_iff_mod_eq_zero.symm, ?_, ?_, ?_, ?_, ?_⟩
  · intro word
    rw [exact word]
    exact product
  · intro word
    have narrower : chunker.keySize * chunker.branches ≤
        chunker.keySize * chunker.branches * chunker.branches :=
      Nat.le_mul_of_pos_right _ branched
    rw [pieceSize, exact (narrower.trans_lt word), Nat.mod_eq_of_lt word]
    exact Nat.mul_pos product branched
  · intro positive size
    exact climbs_of_chunkSize_pos positive size
  · intro empty size some outcome
    exact Shape.not_climbs_of_window_eq_zero empty some outcome
  · intro σ archive part sink same
    subst same
    constructor
    · intro positive
      exact Archive.ends_of_pieceSize_pos positive part sink
    · intro empty some takes state outcome
      rw [Archive.pieceOf, empty, Nat.zero_min]
      exact Archive.not_writes_of_width_eq_zero takes some state outcome

/-- With so many branches that keys of 32 bytes make a chunk size of zero, one byte takes levels for
ever; and with fewer, where the piece size is zero, one byte is written for ever. -/
theorem sizes_of_new_of_wrapped :
    ∃ chunker other,
      new 576460752303423488 (some Algorithm.sha256.hasher) = .ok chunker ∧
      new 4294967296 (some Algorithm.sha256.hasher) = .ok other ∧
      (∀ outcome, ¬ Shape.Climbs 576460752303423488 1 ⟨0, chunker.chunkSize⟩ outcome) ∧
      other.chunkSize = 137438953472 ∧
      ∀ (store : Store Bytes) (written : Bytes) (outcome : Except Fault Nat × Bytes),
        ¬ Archive.Writes (.ofBytes #[7]) Sink.appending
          ((⟨other, store⟩ : Archive Bytes).pieceOf (.ofBytes #[7])) 0 written outcome := by
  have made : new 576460752303423488 (some Algorithm.sha256.hasher) =
      .ok ⟨576460752303423488, Algorithm.sha256.hasher, by decide, by decide⟩ := rfl
  have narrower : new 4294967296 (some Algorithm.sha256.hasher) =
      .ok ⟨4294967296, Algorithm.sha256.hasher, by decide, by decide⟩ := rfl
  obtain ⟨-, -, -, -, -, -, -, stuck, -⟩ := sizes_of_new.2 _ made
  obtain ⟨-, -, -, -, -, -, -, -, streams⟩ := sizes_of_new.2 _ narrower
  refine ⟨_, _, made, narrower, stuck rfl 1 (by decide), rfl, fun store written outcome => ?_⟩
  have takes (state : Bytes) : ∃ after, (Sink.appending #[]).run state = (.ok true, after) :=
    ⟨_, rfl⟩
  exact (streams ⟨_, store⟩ (.ofBytes #[7]) Sink.appending rfl).2 rfl (by decide) takes written outcome

end Chunker

end ChunkTree
