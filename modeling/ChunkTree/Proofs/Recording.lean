import ChunkTree.Proofs.Emission

/-!
# What a split hands over

Splitting does not look at what the collector does with a chunk, except that it ends where the
collector fails.  So what it hands over can be written down beforehand (`Chunker.emission`), and
with any collector it is one call after the other with these chunks, up to the first that fails
(`Chunker.split_ofBytes`).  Every chunk that is handed over states its size in its data
(`Chunker.stamped_of_mem_emission`).
-/

namespace ChunkTree

variable {σ τ : Type}

/-- The data of the chunk states its size. -/
def Chunk.Stamped (chunk : Chunk) : Prop :=
  ∃ data, chunk.data = some data ∧ Header.decode data = .ok chunk.size

/-- Chunks that state their sizes are told apart by their keys and data. -/
theorem Chunk.Stamped.eq {one other : Chunk} (stamped : one.Stamped) (also : other.Stamped)
    (keys : one.key = other.key) (same : one.data = other.data) : one = other := by
  obtain ⟨data, holds, states⟩ := stamped
  obtain ⟨otherData, otherHolds, otherStates⟩ := also
  rw [holds, otherHolds, Option.some.injEq] at same
  subst same
  rw [states, Except.ok.injEq] at otherStates
  cases one
  cases other
  simp_all

theorem Chunk.Stamped.filled {chunk : Chunk} (stamped : chunk.Stamped) : ¬ chunk.isRequest := by
  obtain ⟨data, holds, -⟩ := stamped
  simp [Chunk.isRequest, holds]

namespace Chunker

section Related

variable {chunker : Chunker} {relates : ∀ α : Type, Action σ α → Action τ α → Prop}
  {collect : Collector σ} {other : Collector τ} (compatible : Action.Compatible relates)
  (collects : ∀ chunk : Chunk, chunk.Stamped → relates _ (collect chunk) (other chunk))
include compatible collects

theorem relates_emit (size : Nat) (body : Bytes) :
    relates _ (chunker.emit collect size body) (chunker.emit other size body) := by
  refine compatible.bind (compatible.lift _) fun key => ?_
  refine compatible.bind (collects _ ?_) fun _ => compatible.pure key
  exact ⟨_, rfl, Header.decode_encode_append _ _⟩

theorem relates_splitAt (depth window : Nat) {part : Section σ} {otherPart : Section τ}
    (agrees : Section.Agrees relates part otherPart) :
    relates _ (chunker.splitAt collect depth window part)
      (chunker.splitAt other depth window otherPart) := by
  induction depth generalizing window part otherPart with
  | zero =>
      rw [splitAt, splitAt, agrees.size_eq]
      exact compatible.bind agrees.readAll fun content =>
        relates_emit compatible collects _ content
  | succ depth ih =>
      rw [splitAt, splitAt, agrees.size_eq]
      by_cases short : otherPart.size < window
      · rw [if_pos short, if_pos short]
        exact ih _ agrees
      · rw [if_neg short, if_neg short]
        refine compatible.bind (compatible.mapM fun index counted => ?_) fun keys =>
          relates_emit compatible collects _ _
        exact ih _ (agrees.branch (mul_lt_of_lt_branchCount (List.mem_range.mp counted)).le)

/-- Splitting sections that read alike with collectors that do alike is doing alike. -/
theorem relates_split {part : Section σ} {otherPart : Section τ}
    (agrees : Section.Agrees relates part otherPart) :
    relates _ (chunker.split part (some collect)) (chunker.split otherPart (some other)) := by
  rw [split, split, agrees.size_eq]
  exact compatible.bind (compatible.lift _) fun shape =>
    relates_splitAt compatible collects _ _ agrees

end Related

end Chunker

/-- Writes down every chunk that is handed over. -/
def record : Collector (Array Chunk) := fun chunk => .update (·.push chunk)

namespace Chunker

variable (chunker : Chunker)

/-- What splitting some content hands over, one chunk after the other, whether it succeeds or
not. -/
def emission (content : Bytes) : List Chunk :=
  ((chunker.split (.ofBytes content) (some record)).run #[]).2.toList

/-- How splitting some content ends when every chunk is taken. -/
def answer (content : Bytes) : Except Fault Key :=
  ((chunker.split (.ofBytes content) (some record)).run #[]).1

end Chunker

namespace Action

/-- The second action hands over what the first one records, one chunk after the other, and ends as
the first one does. -/
def Replays (collect : Collector σ) (α : Type) (first : Action (Array Chunk) α)
    (second : Action σ α) : Prop :=
  ∃ (chunks : List Chunk) (outcome : Except Fault α),
    (∀ before, first.run before = (outcome, before ++ chunks.toArray)) ∧
      second = (do forM chunks collect; .lift outcome)

theorem Replays.compatible (collect : Collector σ) : Compatible (Replays collect) where
  lift outcome := ⟨[], outcome, fun before => by simp, by rw [List.forM_nil, pure_bind]⟩
  bind := by
    rintro α β first second next other ⟨chunks, outcome, recorded, rfl⟩ tails
    cases outcome with
    | error fault =>
        refine ⟨chunks, .error fault, fun before => ?_, ?_⟩
        · rw [run_bind, recorded]
        · rw [bind_assoc]
          rfl
    | ok answer =>
        obtain ⟨more, outcome, recordedNext, same⟩ := tails answer
        refine ⟨chunks ++ more, outcome, fun before => ?_, ?_⟩
        · rw [run_bind, recorded]
          simp only [recordedNext, Array.append_assoc, List.append_toArray]
        · rw [bind_assoc, List.forM_append, bind_assoc, ← same]
          rfl

end Action

namespace Chunker

variable {chunker : Chunker}

/-- The chunks of content are what splitting it hands over, if it ends well. -/
theorem chunksOf_eq_ok_iff_emission {content : Bytes} {root : Key} {chunks : Array Chunk} :
    chunker.chunksOf content = .ok (root, chunks) ↔
      chunker.answer content = .ok root ∧ chunker.emission content = chunks.toList := by
  have ran : (chunker.split (.ofBytes content) (some fun chunk => .update (·.push chunk))).run #[] =
      (chunker.answer content, (chunker.emission content).toArray) := rfl
  simp only [chunksOf, ran]
  cases chunker.answer content with
  | error fault => simp
  | ok key => simp [← Array.toList_inj]

/-- **Splitting hands its chunks over one by one.** With any collector it calls this with the
chunks that it is known to hand over, one after the other; where a call fails it ends, and else as
known. -/
theorem split_ofBytes (collect : Collector σ) (content : Bytes) :
    chunker.split (.ofBytes content) (some collect) =
      (do forM (chunker.emission content) collect; .lift (chunker.answer content)) := by
  have compatible := Action.Replays.compatible collect
  have records : ∀ chunk, Action.Replays collect _ (record chunk) (collect chunk) := by
    refine fun chunk => ⟨[chunk], .ok (), fun before => by simp [record], ?_⟩
    rw [List.forM_cons, List.forM_nil, bind_assoc]
    exact bind_pure_unit.symm
  have related : Section.Relates (Action.Replays collect) (Section.ofBytes content)
      (Section.ofBytes content) := ⟨rfl, rfl, fun start count => compatible.pure _⟩
  have replays : Action.Replays collect Key (chunker.split (.ofBytes content) (some record))
      (chunker.split (.ofBytes content) (some collect)) :=
    relates_split compatible (fun chunk _ => records chunk) (related.agrees compatible)
  obtain ⟨chunks, outcome, recorded, same⟩ := replays
  rw [same, emission, answer, recorded #[]]
  simp

/-- Every chunk that is handed over states its size. -/
theorem stamped_of_mem_emission {content : Bytes} {chunk : Chunk}
    (member : chunk ∈ chunker.emission content) : chunk.Stamped := by
  let kind (chunks : Array Chunk) : Prop := ∀ other ∈ chunks, other.Stamped
  have records : ∀ chunk : Chunk, chunk.Stamped → Action.Keeps kind (record chunk) := by
    intro chunk stamped chunks all other member
    rcases Array.mem_push.mp member with old | rfl
    · exact all other old
    · exact stamped
  have related : Section.Relates (fun _ action other => action = other ∧ Action.Keeps kind action)
      (Section.ofBytes content) (Section.ofBytes content) :=
    ⟨rfl, rfl, fun start count => ⟨rfl, Action.Keeps.pure kind _⟩⟩
  have keeps : Action.Keeps kind (chunker.split (.ofBytes content) (some record)) :=
    (relates_split (Action.Keeps.compatible kind)
      (fun chunk stamped => ⟨rfl, records chunk stamped⟩)
      (related.agrees (Action.Keeps.compatible kind))).2
  exact keeps #[] (fun other none => absurd none (Array.not_mem_empty other)) chunk
    (Array.mem_toList_iff.mp member)

end Chunker

end ChunkTree
