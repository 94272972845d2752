import ChunkTree.Proofs.Memory
import ChunkTree.Proofs.WriteBehind

/-!
# Reading what was written

A session whose fast tier is memory, which starts out empty, is emptied now and then, and is written
by nobody else.  The durable tier may be slow, fail, forget or answer anything, and its contents may
change by themselves.  A `Watched` session notes which chunks memory has taken since it was last empty,
and these are what memory holds at every point (`Watched.holdsFirst_run`).

So whatever was put is there to be read, no matter how far its durable write has come, and only the
rest is asked of the durable tier (`Watched.ownWrites_run`).
-/

namespace ChunkTree.Tiered

variable {σ τ δ ι : Type}

/-- A move of a session on a part of its tiers. -/
def Move.within (place : Place σ τ) : Move τ ι → Move σ ι
  | .begin caller chunk => .begin caller chunk
  | .count caller => .count caller
  | .queue caller => .queue caller
  | .get key => .get key
  | .take => .take
  | .write => .write
  | .finish => .finish
  | .elsewhere change => .elsewhere fun tiers => place.update (change (place.view tiers)) tiers

/-- What can happen to a session behind memory: any move, where only the durable tier changes
elsewhere, or memory is emptied. -/
inductive Use (δ ι : Type) where
  | move (move : Move δ ι)
  | clear

/-- A session behind memory, with the chunks that memory has taken since it was last empty. -/
structure Watched (δ ι : Type) where
  session : Session (Memory × δ) ι
  taken : List Chunk

namespace Watched

/-- Memory starts out empty, and the durable tier with any contents. -/
def start (contents : δ) : Watched δ ι := ⟨.start (∅, contents), []⟩

/-- What memory holds now. -/
def memory (watched : Watched δ ι) : Memory := watched.session.state.1.1

/-- What the durable tier holds now. -/
def contents (watched : Watched δ ι) : δ := watched.session.state.1.2

variable [Fintype ι] [DecidableEq ι]

/-- What a use makes of a watched session. -/
def step (durable : Store δ) (watched : Watched δ ι) : Use δ ι → Watched δ ι
  | .move move =>
    let next := watched.session.step inFront (behind durable) (move.within .snd)
    ⟨next, watched.taken ++ (next.accepted.drop watched.session.accepted.length).map Prod.snd⟩
  | .clear =>
    ⟨watched.session.step inFront (behind durable) (.elsewhere fun tiers => (∅, tiers.2)), []⟩

/-- One use after the other. -/
def run (durable : Store δ) (watched : Watched δ ι) (uses : List (Use δ ι)) : Watched δ ι :=
  uses.foldl (step durable) watched

variable {durable : Store δ} {watched : Watched δ ι}

/-- A move that does not begin a put leaves memory as it is, and memory takes nothing. -/
theorem beside_move (durable : Store δ) (session : Session (Memory × δ) ι) {move : Move δ ι}
    (other : ∀ caller chunk, move ≠ .begin caller chunk) :
    (session.step inFront (behind durable) (move.within .snd)).state.1.1 = session.state.1.1 ∧
      (session.step inFront (behind durable) (move.within .snd)).accepted = session.accepted := by
  cases move with
  | begin caller chunk => exact absurd rfl (other caller chunk)
  | count caller =>
      rw [Move.within, Session.step]
      cases session.callers caller with
      | idle => exact ⟨rfl, rfl⟩
      | kept chunk => exact ⟨rfl, rfl⟩
      | counted chunk => exact ⟨rfl, rfl⟩
  | queue caller =>
      rw [Move.within, Session.step]
      cases session.callers caller with
      | idle => exact ⟨rfl, rfl⟩
      | kept chunk => exact ⟨rfl, rfl⟩
      | counted chunk => exact ⟨rfl, rfl⟩
  | get key =>
      rw [Move.within, Session.step, run_get_inFront]
      cases session.state.1.1[key]? with
      | none => exact ⟨rfl, rfl⟩
      | some chunk => exact ⟨rfl, rfl⟩
  | take =>
      rw [Move.within, Session.step]
      rcases session.worker with _ | held | _
      · rcases session.state.2.pop? with _ | ⟨chunk, rest⟩
        · exact ⟨rfl, rfl⟩
        · exact ⟨rfl, rfl⟩
      · exact ⟨rfl, rfl⟩
      · exact ⟨rfl, rfl⟩
  | write =>
      rw [Move.within, Session.step]
      rcases session.worker with _ | held | _
      · exact ⟨rfl, rfl⟩
      · simp only [behind, Store.within, Action.run_within, Place.snd]
        rcases ((durable.put held).run session.state.1.2).1 with fault | done
        · exact ⟨rfl, rfl⟩
        · exact ⟨rfl, rfl⟩
      · exact ⟨rfl, rfl⟩
  | finish =>
      rw [Move.within, Session.step]
      rcases session.worker with _ | held | _
      · exact ⟨rfl, rfl⟩
      · exact ⟨rfl, rfl⟩
      · exact ⟨rfl, rfl⟩
  | elsewhere change => exact ⟨rfl, rfl⟩

/-- Memory takes a chunk that is put, unless that is a request. -/
theorem step_begin (durable : Store δ) {session : Session (Memory × δ) ι} {caller : ι}
    (idle : session.callers caller = .idle) (chunk : Chunk) :
    session.step inFront (behind durable) (.begin caller chunk) =
      if chunk.isRequest then session
      else { session with
        state := ((session.state.1.1.insertIfNew chunk.key chunk, session.state.1.2), session.state.2)
        callers := session.place caller (.kept chunk)
        accepted := session.accepted ++ [(caller, chunk)]
        serial := session.serial && decide session.Resting } := by
  rw [Session.step, idle]
  simp only [inFront, Store.within, Action.run_within, Place.fst, Memory.store, Memory.run_put]
  by_cases request : chunk.isRequest
  · simp only [if_pos request]
  · simp only [if_neg request]

/-- Memory goes on holding the first chunk under each key that it has taken. -/
theorem holdsFirst_step (holds : watched.memory.HoldsFirst watched.taken) (use : Use δ ι) :
    (watched.step durable use).memory.HoldsFirst (watched.step durable use).taken := by
  rcases watched with ⟨session, taken⟩
  have same {next : Session (Memory × δ) ι} (memory : next.state.1.1 = session.state.1.1)
      (accepted : next.accepted = session.accepted) :
      next.state.1.1.HoldsFirst (taken ++ (next.accepted.drop session.accepted.length).map Prod.snd) := by
    rw [memory, accepted, List.drop_length, List.map_nil, List.append_nil]
    exact holds
  cases use with
  | clear => exact Memory.holdsFirst_empty
  | move move =>
      by_cases begins : ∃ caller chunk, move = .begin caller chunk
      · obtain ⟨caller, chunk, rfl⟩ := begins
        simp only [step, memory, Move.within]
        by_cases idle : session.callers caller = .idle
        · rw [step_begin durable idle]
          by_cases request : chunk.isRequest
          · rw [if_pos request]
            exact same rfl rfl
          · rw [if_neg request]
            simp only [List.drop_left, List.map_singleton]
            exact holds.insertIfNew chunk
        · have busy : session.step inFront (behind durable) (.begin caller chunk) = session := by
            rw [Session.step]
            cases point : session.callers caller with
            | idle => exact absurd point idle
            | kept other => rfl
            | counted other => rfl
          rw [busy]
          exact same rfl rfl
      · have other : ∀ caller chunk, move ≠ .begin caller chunk := fun caller chunk equal =>
          begins ⟨caller, chunk, equal⟩
        obtain ⟨memory, accepted⟩ := beside_move durable session other
        exact same memory accepted

/-- Memory holds the first chunk under each key that it has taken, at every point of every run. -/
theorem holdsFirst_run (durable : Store δ) (contents : δ) (uses : List (Use δ ι)) :
    ((start contents).run durable uses).memory.HoldsFirst ((start contents).run durable uses).taken := by
  have from_here : ∀ watched : Watched δ ι, watched.memory.HoldsFirst watched.taken →
      (watched.run durable uses).memory.HoldsFirst (watched.run durable uses).taken := by
    induction uses with
    | nil => exact fun watched holds => holds
    | cons use rest ih => exact fun watched holds => ih _ (holdsFirst_step holds use)
  exact from_here _ Memory.holdsFirst_empty

/-- What a session behind memory owes to those who write and read. -/
structure OwnWrites (durable : Store δ) (watched : Watched δ ι) : Prop where
  /-- Memory takes what is put, unless it is a request. -/
  takes : ∀ (caller : ι) (chunk : Chunk), watched.session.callers caller = .idle →
    (watched.step durable (.move (.begin caller chunk))).taken =
      if chunk.isRequest then watched.taken else watched.taken ++ [chunk]
  /-- The first chunk taken for a key is read back, and nothing else is looked at. -/
  kept : ∀ (key : Key) (chunk : Chunk), Memory.firstOf watched.taken key = some chunk →
    ∀ other : Store δ, (Tiered.get inFront (behind other) key).run watched.session.state =
      (.ok (some chunk), watched.session.state)
  /-- For any other key the answer is that of the durable tier, right or wrong. -/
  missed : ∀ key : Key, Memory.firstOf watched.taken key = none →
    ((Tiered.get inFront (behind durable) key).run watched.session.state).1 =
      ((durable.get key).run watched.contents).1
  /-- A get changes nothing but what the durable tier changes of itself, and that only if it is asked. -/
  unchanged : ∀ key : Key, watched.session.step inFront (behind durable) (.get key) =
    { watched.session with state := ((watched.memory,
        if Memory.firstOf watched.taken key = none then ((durable.get key).run watched.contents).2
        else watched.contents), watched.session.state.2) }
  /-- What no get of the durable tier changes by itself, no get changes. -/
  preserved : ∀ {γ : Type} (view : δ → γ),
    (∀ key contents, view ((durable.get key).run contents).2 = view contents) →
      ∀ key, view (watched.session.step inFront (behind durable) (.get key)).state.1.2 =
        view watched.contents

/-- **What was put is read back.**  However far the durable writes have come and whatever the durable
tier does, a get answers with the first chunk that memory has taken for the key since it was last
empty, without asking the durable tier; only for the other keys it asks, and it copies nothing. -/
theorem ownWrites_run (durable : Store δ) (contents : δ) (uses : List (Use δ ι)) :
    ((start contents).run durable uses).OwnWrites durable := by
  have holds := holdsFirst_run durable contents uses
  generalize (start contents).run durable uses = watched at holds ⊢
  have bound (key : Key) : watched.session.state.1.1[key]? = Memory.firstOf watched.taken key :=
    holds key
  have unchanged (key : Key) : watched.session.step inFront (behind durable) (.get key) =
      { watched.session with state := ((watched.memory,
          if Memory.firstOf watched.taken key = none then ((durable.get key).run watched.contents).2
          else watched.contents), watched.session.state.2) } := by
    rw [Session.step, run_get_inFront, bound key]
    cases first : Memory.firstOf watched.taken key with
    | none => rfl
    | some chunk => rfl
  refine ⟨?_, ?_, ?_, unchanged, ?_⟩
  · intro caller chunk idle
    simp only [step, Move.within, step_begin durable idle]
    by_cases request : chunk.isRequest
    · simp only [if_pos request, List.drop_length, List.map_nil, List.append_nil]
    · simp only [if_neg request, List.drop_left, List.map_singleton]
  · intro key chunk first other
    rw [run_get_inFront, bound key, first]
  · intro key none
    rw [run_get_inFront, bound key, none]
    rfl
  · intro γ view kept key
    rw [unchanged key]
    by_cases none : Memory.firstOf watched.taken key = none
    · simp only [if_pos none]
      exact kept key watched.contents
    · simp only [if_neg none]

end Watched

end ChunkTree.Tiered
