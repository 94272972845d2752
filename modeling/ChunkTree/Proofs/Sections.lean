import ChunkTree.Proofs.Pieces
import ChunkTree.Proofs.Traversal
import ChunkTree.Section

/-!
# Reading and slicing sections

A read that stays inside its section asks the source for the range, moved to where the section
starts.  A chain of slices (`Section.cut`) is one section over the same source, moved by all the
starts together (`Section.eq_of_cut_eq_ok`).  A section may hold some content whatever happens
around it (`Section.Holds`), and two sections may be related in all that they do
(`Section.Relates`), or in the reads that stay inside them (`Section.Agrees`).
-/

namespace ChunkTree

variable {σ τ : Type}

namespace Section

/-- A read inside the section asks its source, unless it is empty. -/
theorem readAt_of_le (part : Section σ) {position count : Nat}
    (inside : position + count ≤ part.size) :
    part.readAt position count =
      if count = 0 then pure #[] else part.source (part.start + position) count := by
  rw [readAt, if_neg (by omega)]

/-- Only a read inside the section succeeds. -/
theorem le_of_run_readAt_eq_ok {part : Section σ} {position count : Nat} {before after : σ}
    {bytes : Bytes} (read : (part.readAt position count).run before = (.ok bytes, after)) :
    position + count ≤ part.size := by
  rw [readAt] at read
  by_cases outside : part.size < position ∨ part.size - position < count
  · rw [if_pos outside, Action.run_throw] at read
    cases read
  · omega

theorem slice_eq_ok_iff {part view : Section σ} {start stop : Nat} :
    part.slice start stop = .ok view ↔
      (start ≤ stop ∧ stop ≤ part.size) ∧
        view = ⟨part.source, part.start + start, stop - start⟩ := by
  unfold slice
  by_cases outside : stop < start ∨ part.size < stop
  · simp only [outside, ↓reduceIte, reduceCtorEq, false_iff]
    omega
  · have inside : start ≤ stop ∧ stop ≤ part.size := by omega
    simp only [outside, ↓reduceIte, Except.ok.injEq, inside, and_self, true_and]
    exact eq_comm

/-- A slice of a slice of the section, and so on, by their starts and stops. -/
def cut (part : Section σ) (ranges : List (Nat × Nat)) : Except Fault (Section σ) :=
  ranges.foldlM (fun view range => view.slice range.1 range.2) part

/-- Where a chain of slices starts in the first of its sections. -/
def offset (ranges : List (Nat × Nat)) : Nat := (ranges.map Prod.fst).sum

theorem cut_cons_eq_ok_iff {part view : Section σ} {range : Nat × Nat}
    {ranges : List (Nat × Nat)} :
    part.cut (range :: ranges) = .ok view ↔
      ∃ next, part.slice range.1 range.2 = .ok next ∧ next.cut ranges = .ok view := by
  unfold cut
  rw [List.foldlM_cons]
  cases part.slice range.1 range.2 with
  | error fault => simp [bind, Except.bind]
  | ok next => simp [bind, Except.bind]

/-- A chain of slices is one section over the same source, inside the first. -/
theorem eq_of_cut_eq_ok {part view : Section σ} {ranges : List (Nat × Nat)}
    (sliced : part.cut ranges = .ok view) :
    view = ⟨part.source, part.start + offset ranges, view.size⟩ ∧
      offset ranges + view.size ≤ part.size := by
  induction ranges generalizing part with
  | nil =>
      cases sliced
      exact ⟨rfl, by simp [offset]⟩
  | cons range rest ih =>
      obtain ⟨next, first, sliced⟩ := cut_cons_eq_ok_iff.mp sliced
      obtain ⟨⟨order, inside⟩, rfl⟩ := slice_eq_ok_iff.mp first
      obtain ⟨same, within⟩ := ih sliced
      have total : offset (range :: rest) = range.1 + offset rest := by
        simp [offset]
      rw [total]
      refine ⟨?_, ?_⟩
      · rw [← Nat.add_assoc]
        exact same
      · have within : offset rest + view.size ≤ range.2 - range.1 := within
        omega

/-- The section reads as this content, whatever happens around it. -/
structure Holds (part : Section σ) (content : Bytes) : Prop where
  size_eq : part.size = content.size
  readAt_eq : ∀ position count, position + count ≤ content.size →
    part.readAt position count = pure (content.slice position count)

theorem holds_ofBytes (content : Bytes) : (ofBytes content : Section σ).Holds content where
  size_eq := rfl
  readAt_eq position count inside := by
    rw [readAt_of_le _ inside]
    by_cases empty : count = 0
    · subst empty
      rw [if_pos rfl, Bytes.slice_zero]
    · rw [if_neg empty]
      simp only [ofBytes, whole, Source.ofBytes, Nat.zero_add]

theorem Holds.readAll {part : Section σ} {content : Bytes} (holds : part.Holds content) :
    part.readAll = pure content := by
  rw [Section.readAll, holds.size_eq, holds.readAt_eq 0 _ (by omega), Bytes.slice, Nat.zero_add,
    Array.extract_size]

/-- A section inside another reads as the other does there. -/
theorem readAt_moved (part : Section σ) {start size position count : Nat}
    (within : start + size ≤ part.size) (inside : position + count ≤ size) :
    (⟨part.source, part.start + start, size⟩ : Section σ).readAt position count =
      part.readAt (start + position) count := by
  rw [readAt_of_le _ inside, readAt_of_le part (by omega)]
  simp only [Nat.add_assoc]

/-- A branch of a section holds a piece of its content. -/
theorem Holds.branch {part : Section σ} {content : Bytes} (holds : part.Holds content)
    {window index : Nat} (inside : index * window < content.size) :
    (part.branch window index).Holds (content.piece window index) where
  size_eq := by
    simp only [Section.branch, holds.size_eq, Bytes.size_piece]
  readAt_eq position count within := by
    rw [Bytes.size_piece] at within
    have whole : index * window + min window (content.size - index * window) ≤ part.size := by
      rw [holds.size_eq]
      omega
    simp only [Section.branch, holds.size_eq]
    rw [readAt_moved part whole within, Bytes.slice_piece _ (by omega)]
    exact holds.readAt_eq _ _ (by omega)

/-- Sections of one size whose reads inside are related. -/
structure Agrees (relates : ∀ α : Type, Action σ α → Action τ α → Prop) (part : Section σ)
    (other : Section τ) : Prop where
  size_eq : part.size = other.size
  readAt : ∀ position count, position + count ≤ other.size →
    relates _ (part.readAt position count) (other.readAt position count)

/-- Sections of one size at one place, over sources that are related. -/
structure Relates (relates : ∀ α : Type, Action σ α → Action τ α → Prop) (part : Section σ)
    (other : Section τ) : Prop where
  start_eq : part.start = other.start
  size_eq : part.size = other.size
  source : ∀ start count, relates _ (part.source start count) (other.source start count)

variable {relates : ∀ α : Type, Action σ α → Action τ α → Prop}

theorem Agrees.readAll {part : Section σ} {other : Section τ}
    (agrees : Agrees relates part other) : relates _ part.readAll other.readAll := by
  rw [Section.readAll, Section.readAll, agrees.size_eq]
  exact agrees.readAt _ _ (Nat.zero_add _).le

/-- Sections that agree have branches that agree. -/
theorem Agrees.branch {part : Section σ} {other : Section τ}
    (agrees : Agrees relates part other) {window index : Nat}
    (started : index * window ≤ other.size) :
    Agrees relates (part.branch window index) (other.branch window index) where
  size_eq := by simp only [Section.branch, agrees.size_eq]
  readAt position count inside := by
    have inside : position + count ≤ min window (other.size - index * window) := inside
    have within : index * window + min window (other.size - index * window) ≤ other.size := by
      omega
    simp only [Section.branch, agrees.size_eq]
    rw [readAt_moved part (agrees.size_eq ▸ within) inside, readAt_moved other within inside]
    exact agrees.readAt _ _ (by omega)

theorem Relates.readAt {part : Section σ} {other : Section τ}
    (related : Relates relates part other) (compatible : Action.Compatible relates)
    (position count : Nat) :
    relates _ (part.readAt position count) (other.readAt position count) := by
  rw [Section.readAt, Section.readAt, related.size_eq, related.start_eq]
  by_cases outside : other.size < position ∨ other.size - position < count
  · rw [if_pos outside, if_pos outside]
    exact compatible.throw _
  · rw [if_neg outside, if_neg outside]
    by_cases empty : count = 0
    · rw [if_pos empty, if_pos empty]
      exact compatible.pure _
    · rw [if_neg empty, if_neg empty]
      exact related.source _ _

theorem Relates.agrees {part : Section σ} {other : Section τ}
    (related : Relates relates part other) (compatible : Action.Compatible relates) :
    Agrees relates part other :=
  ⟨related.size_eq, fun position count _ => related.readAt compatible position count⟩

theorem Relates.readAll {part : Section σ} {other : Section τ}
    (related : Relates relates part other) (compatible : Action.Compatible relates) :
    relates _ part.readAll other.readAll :=
  (related.agrees compatible).readAll

/-- Related sections can be sliced alike, and their slices are related. -/
theorem Relates.cut {part : Section σ} {other view : Section τ} {ranges : List (Nat × Nat)}
    (related : Relates relates part other) (sliced : other.cut ranges = .ok view) :
    ∃ first, part.cut ranges = .ok first ∧ Relates relates first view := by
  induction ranges generalizing part other with
  | nil =>
      cases sliced
      exact ⟨part, rfl, related⟩
  | cons range rest ih =>
      obtain ⟨next, first, sliced⟩ := cut_cons_eq_ok_iff.mp sliced
      obtain ⟨⟨order, inside⟩, rfl⟩ := slice_eq_ok_iff.mp first
      have step : part.slice range.1 range.2 =
          .ok ⟨part.source, part.start + range.1, range.2 - range.1⟩ :=
        slice_eq_ok_iff.mpr ⟨⟨order, related.size_eq ▸ inside⟩, rfl⟩
      have moved : Relates relates
          (⟨part.source, part.start + range.1, range.2 - range.1⟩ : Section σ)
          (⟨other.source, other.start + range.1, range.2 - range.1⟩ : Section τ) :=
        ⟨congrArg (· + range.1) related.start_eq, rfl, related.source⟩
      obtain ⟨last, cut, related⟩ := ih moved sliced
      exact ⟨last, cut_cons_eq_ok_iff.mpr ⟨_, step, cut⟩, related⟩

end Section

end ChunkTree
