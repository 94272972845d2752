import ChunkTree.Proofs.Descent

/-!
# Transcripts

A store can keep a transcript of what it is asked and what it answers (`Store.transcribed`).
Whatever is read from the store reads the same from the store with its transcript, which only grows
(`Action.Records`); so what reading does to a store may be said of the transcript of the same read
(`Chunker.exists_transcribed_join`).
-/

namespace ChunkTree

variable {σ τ α β : Type}

/-- The first action runs as the second does, and adds to the end of a log beside the state. -/
def Action.Records (recorded : Action (σ × List τ) α) (action : Action σ α) : Prop :=
  ∀ state log, ∃ more, recorded.run (state, log) =
    ((action.run state).1, (action.run state).2, log ++ more)

namespace Action

theorem Records.compatible :
    Compatible fun α (recorded : Action (σ × List τ) α) action => Records recorded action where
  lift outcome := fun state log => ⟨[], by rw [List.append_nil]; rfl⟩
  bind := by
    intro α β recorded action next other first second state log
    obtain ⟨more, ran⟩ := first state log
    rw [run_bind, run_bind, ran]
    rcases action.run state with ⟨fault | answer, between⟩
    · exact ⟨more, rfl⟩
    · obtain ⟨others, ran⟩ := second answer between (log ++ more)
      exact ⟨more ++ others, by rw [← List.append_assoc]; exact ran⟩

/-- What a run does, the recorded run does too. -/
theorem Records.run {recorded : Action (σ × List τ) α} {action : Action σ α}
    (records : Records recorded action) {before after : σ} {outcome : Except Fault α}
    (ran : action.run before = (outcome, after)) (log : List τ) :
    ∃ more, recorded.run (before, log) = (outcome, after, log ++ more) := by
  obtain ⟨more, recorded⟩ := records before log
  rw [ran] at recorded
  exact ⟨more, recorded⟩

end Action

/-- What a store was asked for, and the data that it gave, if it gave any. -/
structure Reply where
  key : Key
  data : Option Bytes

/-- What a store replied, the latest last. -/
abbrev Transcript := List Reply

/-- The reply to a key, by the outcome of getting its chunk. -/
def Reply.to (key : Key) : Except Fault (Option Chunk) → Reply
  | .ok (some chunk) => ⟨key, chunk.data⟩
  | _ => ⟨key, none⟩

/-- The store with a transcript of its answers beside its state. -/
def Store.transcribed (store : Store σ) : Store (σ × Transcript) where
  put chunk := (store.put chunk).within .fst
  get key := .of fun (state, transcript) =>
    match (store.get key).run state with
    | (outcome, state) => (outcome, state, transcript ++ [.to key outcome])

/-- A store that answers with the chunks of a script, one after the other, whatever it is asked. -/
def Store.scripted : Store (List Chunk) where
  put _ := return
  get _ := .of fun
    | [] => (.ok none, [])
    | chunk :: rest => (.ok (some chunk), rest)

theorem Store.run_get_transcribed (store : Store σ) (key : Key) (state : σ)
    (transcript : Transcript) :
    (store.transcribed.get key).run (state, transcript) =
      (((store.get key).run state).1, ((store.get key).run state).2,
        transcript ++ [.to key ((store.get key).run state).1]) :=
  rfl

theorem Store.records_get (store : Store σ) (key : Key) :
    Action.Records (store.transcribed.get key) (store.get key) :=
  fun state transcript => ⟨_, store.run_get_transcribed key state transcript⟩

namespace Chunker

variable {chunker : Chunker} {store : Store σ}

/-- A fetch adds the chunk's data to the transcript. -/
theorem transcript_of_run_fetch {key : Key} {before after : σ × Transcript} {data : Bytes}
    (fetched : (chunker.fetch store.transcribed key).run before = (.ok data, after)) :
    after.2 = before.2 ++ [⟨key, some data⟩] := by
  rcases before with ⟨state, transcript⟩
  obtain ⟨⟨chunk, got, held⟩, -⟩ := run_fetch_eq_ok_iff.mp fetched
  rw [Store.run_get_transcribed] at got
  rcases answered : (store.get key).run state with ⟨outcome, next⟩
  rw [answered] at got
  cases got
  simp only [Reply.to, held]

/-- A tree that opens over the store opens over the store with its transcript, as a section that
reads the same. -/
theorem exists_transcribed_join {key : Key} {before opened : σ} {part : Section σ}
    (joined : (chunker.join store key).run before = (.ok part, opened)) :
    ∃ root opening,
      (chunker.openRoot store.transcribed key).run (before, []) = (.ok root, opened, opening) ∧
        Section.Relates (fun _ => Action.Records)
          (chunker.sectionOf store.transcribed root) part := by
  obtain ⟨root, openedRoot, rfl⟩ := run_join_eq_ok_iff.mp joined
  have records : Action.Records (chunker.openRoot store.transcribed key)
      (chunker.openRoot store key) :=
    relates_openRoot Action.Records.compatible store.records_get key
  obtain ⟨more, transcribed⟩ := records.run openedRoot []
  exact ⟨root, _, transcribed, relates_sectionOf Action.Records.compatible store.records_get root⟩

end Chunker

end ChunkTree
