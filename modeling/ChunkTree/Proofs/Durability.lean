import ChunkTree.Program
import ChunkTree.Proofs.Memory
import ChunkTree.Proofs.OpenStores

/-!
# What both tiers have

As long as no durable write has failed, a chunk in memory is on disk or its write waits
(`Program.Sure`).  Every write that is taken from the backlog keeps this, whatever goes wrong with it and
is noticed (`Program.sure_work`), so once nothing waits, everything in memory is on disk
(`Program.Sure.onDisk`).
-/

namespace ChunkTree

/-- The worker has nothing to do, or takes the oldest write to the durable tier and counts a failure. -/
theorem Tiered.work_cases {σ : Type} (durable : Store σ) (state : σ × Backlog) :
    state.2.pending = [] ∧ work durable state = state ∨
      ∃ (chunk : Chunk) (rest : Backlog) (tiers : σ), state.2.pending = chunk :: rest.pending ∧
        rest.failed = state.2.failed ∧
        ((durable.put chunk).run state.1 = (.ok (), tiers) ∧
            work durable state = (tiers, rest) ∨
          (∃ fault, (durable.put chunk).run state.1 = (.error fault, tiers)) ∧
            work durable state = (tiers, rest.countFailure)) := by
  rw [work]
  rcases taken : state.2.pop? with _ | ⟨chunk, rest⟩
  · exact .inl ⟨Backlog.pop?_eq_none.mp taken, rfl⟩
  · right
    refine ⟨chunk, rest, ((durable.put chunk).run state.1).2, Backlog.pending_of_pop? taken,
      Backlog.failed_of_pop? taken, ?_⟩
    rcases ran : (durable.put chunk).run state.1 with ⟨fault | _, tiers⟩
    · exact .inr ⟨⟨fault, rfl⟩, by simp only [ran]⟩
    · exact .inl ⟨rfl, by simp only [ran]⟩

namespace Program

open Disk (Distinct Follows OnDisk Stays Truthful Usable)

variable {base : String} {root? : Option (List String)} {made : Key → Bytes → Prop}
  {state before between after : State} {key : Key} {data : Bytes} {size : Nat}

/-- Memory and backlog have chunks of one kind only, and a chunk in memory is on disk or its write
waits, unless a write has failed. -/
structure Sure (base : String) (root? : Option (List String)) (made : Key → Bytes → Prop)
    (state : State) : Prop where
  truthful : Truthful base root? made state.1.2
  waiting : ∀ chunk ∈ state.2.pending, ∃ data, chunk.data = some data ∧ made chunk.key data
  held : ∀ key chunk, state.1.1[key]? = some chunk → ∃ data, chunk.data = some data ∧ made key data
  safe : state.2.failed = 0 → ∀ key chunk data, state.1.1[key]? = some chunk →
    chunk.data = some data →
      (∃ waits ∈ state.2.pending, waits.key = key) ∨ OnDisk base root? state.1.2 key data

/-- Nothing that was in memory or on disk is gone. -/
structure Onward (base : String) (root? : Option (List String)) (made : Key → Bytes → Prop)
    (before after : State) : Prop where
  memory : before.1.1.Extends after.1.1
  disk : ∀ key data, made key data → OnDisk base root? before.1.2 key data →
    OnDisk base root? after.1.2 key data

theorem Onward.refl (state : State) : Onward base root? made state state :=
  ⟨Memory.Extends.refl _, fun _ _ _ held => held⟩

theorem Onward.trans (first : Onward base root? made before between)
    (second : Onward base root? made between after) : Onward base root? made before after :=
  ⟨first.memory.trans second.memory, fun key data known held =>
    second.disk key data known (first.disk key data known held)⟩

/-- When nothing waits and nothing has failed, what is in memory is on disk. -/
theorem Sure.onDisk (sure : Sure base root? made state) (idle : state.2.pending = [])
    (clean : state.2.failed = 0) {chunk : Chunk} (bound : state.1.1[key]? = some chunk)
    (holds : chunk.data = some data) : OnDisk base root? state.1.2 key data := by
  rcases sure.safe clean key chunk data bound holds with ⟨waits, member, -⟩ | held
  · rw [idle] at member
    exact absurd member List.not_mem_nil
  · exact held

/-- Files may change in any way that leaves the chunks on disk. -/
theorem Sure.of_follows (sure : Sure base root? made state) {files : FileSystem}
    (follows : Follows base root? made state.1.2 files) :
    Sure base root? made ((state.1.1, files), state.2) ∧
      Onward base root? made state ((state.1.1, files), state.2) := by
  refine ⟨⟨follows.truthful, sure.waiting, sure.held, fun clean key chunk data bound holds => ?_⟩,
    Memory.Extends.refl _, follows.kept⟩
  obtain ⟨other, same, known⟩ := sure.held key chunk bound
  rw [holds, Option.some.injEq] at same
  subst same
  exact (sure.safe clean key chunk _ bound holds).imp id (follows.kept key _ known)

/-- Nothing is in memory and nothing waits at the start. -/
theorem sure_start {files : FileSystem} (truthful : Truthful base root? made files) :
    Sure base root? made ((∅, files), Backlog.empty) where
  truthful := truthful
  waiting := by
    intro chunk member
    rw [Backlog.pending_empty] at member
    exact absurd member List.not_mem_nil
  held := by
    intro key chunk bound
    simp at bound
  safe := by
    intro _ key chunk data bound
    simp at bound

/-- Whatever may go wrong with a put, what it leaves is as with a put, and if it succeeds, the chunk is
there. -/
theorem follows_put (usable : Usable base) (distinct : Distinct size made) {files : FileSystem}
    (truthful : Truthful base root? made files) {trouble? : Option Disk.Trouble}
    (noticed : Disk.Noticed trouble? data) (known : made key data) (stated : UInt64) :
    Follows base root? made files
        (((Disk.storeUnder base trouble?).put ⟨key, some data, stated⟩).run files).2 ∧
      Stays root? made files
        (((Disk.storeUnder base trouble?).put ⟨key, some data, stated⟩).run files).2 ∧
      ((((Disk.storeUnder base trouble?).put ⟨key, some data, stated⟩).run files).1 = .ok () →
        OnDisk base root?
          (((Disk.storeUnder base trouble?).put ⟨key, some data, stated⟩).run files).2 key data) := by
  cases trouble? with
  | none =>
      exact Disk.follows_putBy usable.filled usable.free distinct truthful known
        (Disk.careful_put base data) stated
  | some trouble =>
      exact Disk.follows_putBy usable.filled usable.free distinct truthful known
        (Disk.careful_putUnder base noticed) stated

/-- The oldest write is taken to the disk. -/
theorem sure_work (usable : Usable base) (distinct : Distinct size made)
    (sure : Sure base root? made state) {trouble? : Option Disk.Trouble}
    (noticed : ∀ key data, made key data → Disk.Noticed trouble? data) :
    Sure base root? made (Tiered.work ((Disk.storeUnder base trouble?).within .snd) state) ∧
      Onward base root? made state
        (Tiered.work ((Disk.storeUnder base trouble?).within .snd) state) ∧
      Stays root? made state.1.2
        (Tiered.work ((Disk.storeUnder base trouble?).within .snd) state).1.2 := by
  rcases Tiered.work_cases ((Disk.storeUnder base trouble?).within .snd) state with
    ⟨-, same⟩ | ⟨⟨key, data?, stated⟩, rest, tiers, pending, failed, worked⟩
  · rw [same]
    exact ⟨sure, Onward.refl _, Stays.refl _⟩
  obtain ⟨data, holds, known⟩ := sure.waiting ⟨key, data?, stated⟩ (by
    rw [pending]
    exact List.mem_cons_self)
  simp only at holds known
  subst holds
  obtain ⟨follows, stays, there⟩ :=
    follows_put usable distinct sure.truthful (noticed key data known) known stated
  rcases put : ((Disk.storeUnder base trouble?).put ⟨key, some data, stated⟩).run state.1.2 with
    ⟨outcome, changed⟩
  rw [put] at follows stays there
  have durable : (((Disk.storeUnder base trouble?).within
      (.snd : Place (Memory × FileSystem) FileSystem)).put ⟨key, some data, stated⟩).run state.1 =
        (outcome, (state.1.1, changed)) := by
    simp only [Store.within, Action.run_within, Place.snd, put]
  have waiting : ∀ chunk ∈ rest.pending, ∃ data, chunk.data = some data ∧ made chunk.key data := by
    intro chunk member
    apply sure.waiting chunk
    rw [pending]
    exact List.mem_cons_of_mem _ member
  rcases worked with ⟨ran, worked⟩ | ⟨⟨fault, ran⟩, worked⟩
  · rw [durable, Prod.mk.injEq] at ran
    obtain ⟨written, rfl⟩ := ran
    rw [worked]
    refine ⟨⟨follows.truthful, waiting, sure.held, ?_⟩, ⟨Memory.Extends.refl _, follows.kept⟩, stays⟩
    intro clean other chunk otherData bound otherHolds
    obtain ⟨_, same, otherKnown⟩ := sure.held other chunk bound
    rw [otherHolds, Option.some.injEq] at same
    subst same
    rcases sure.safe (failed ▸ clean) other chunk _ bound otherHolds with
      ⟨waits, member, rfl⟩ | held
    · rw [pending] at member
      rcases List.mem_cons.mp member with rfl | member
      · right
        rw [distinct.single _ _ _ otherKnown known]
        exact there written
      · exact .inl ⟨waits, member, rfl⟩
    · exact .inr (follows.kept other _ otherKnown held)
  · rw [durable, Prod.mk.injEq] at ran
    obtain ⟨-, rfl⟩ := ran
    rw [worked]
    -- A write has failed, so no more is promised of what is in memory.
    refine ⟨⟨follows.truthful, waiting, sure.held, fun never => ?_⟩,
      ⟨Memory.Extends.refl _, follows.kept⟩, stays⟩
    simp [Backlog.countFailure] at never

/-- A put into both tiers puts the chunk into memory, and its write behind all others. -/
theorem run_put (chunk : Chunk) (holds : chunk.data = some data) (state : State) :
    ((Tiered.store fastTier (durableTier base)).put chunk).run state =
      (.ok (), ((state.1.1.insertIfNew chunk.key chunk, state.1.2), state.2.push chunk)) := by
  have filled : ¬ chunk.isRequest := by simp [Chunk.isRequest, holds]
  exact (Tiered.run_put_inFront chunk state).trans (if_neg filled)

/-- What both tiers answer in some state: memory is asked first. -/
def tierAnswers (base : String) (state : State) (key : Key) : Except Fault (Option Chunk) :=
  match state.1.1[key]? with
  | some chunk => .ok (some chunk)
  | none => ((Disk.get base key).run state.1.2).1

/-- A get from both tiers changes nothing. -/
theorem run_get (base : String) (key : Key) (state : State) :
    ((Tiered.store fastTier (durableTier base)).get key).run state =
      (tierAnswers base state key, state) := by
  refine (Tiered.run_get_inFront (Disk.store base) key state).trans ?_
  rw [tierAnswers]
  cases state.1.1[key]? with
  | some chunk => rfl
  | none => simp only [Disk.store, Disk.run_get]

/-- Both tiers have what is on disk. -/
theorem tierAnswers_of_onDisk (usable : Usable base) (distinct : Distinct size made)
    (sure : Sure base root? made state) (known : made key data)
    (onDisk : OnDisk base root? state.1.2 key data) {stated : UInt64}
    (header : Header.decode data = .ok stated) :
    ∃ held, tierAnswers base state key = .ok (some held) ∧ held.data = some data := by
  rw [tierAnswers]
  cases bound : state.1.1[key]? with
  | some chunk =>
      obtain ⟨other, holds, also⟩ := sure.held key chunk bound
      exact ⟨chunk, rfl, by rw [holds, distinct.single _ _ _ also known]⟩
  | none =>
      have found :=
        Disk.get_of_onDisk usable sure.truthful (distinct.lasting _ _ known) onDisk header
      simp only [found]
      exact ⟨_, rfl, rfl⟩

/-- A chunk that is put is in memory, and its write waits. -/
theorem sure_put (distinct : Distinct size made) (sure : Sure base root? made state)
    {chunk : Chunk} (holds : chunk.data = some data) (known : made chunk.key data) :
    ∃ next, ((Tiered.store fastTier (durableTier base)).put chunk).run state = (.ok (), next) ∧
      Sure base root? made next ∧ Onward base root? made state next ∧ next.1.2 = state.1.2 ∧
      ∃ bound, next.1.1[chunk.key]? = some bound ∧ bound.data = some data := by
  have grown := Memory.extends_insertIfNew state.1.1 chunk
  have waits : chunk ∈ (state.2.push chunk).pending := by
    rw [Backlog.pending_push]
    exact List.mem_append_right _ (List.mem_singleton_self _)
  have old {waiting : Chunk} (member : waiting ∈ state.2.pending) :
      waiting ∈ (state.2.push chunk).pending := by
    rw [Backlog.pending_push]
    exact List.mem_append_left _ member
  refine ⟨_, run_put chunk holds state, ⟨sure.truthful, ?_, ?_, ?_⟩, ⟨grown, fun _ _ _ => id⟩, rfl,
    ?_⟩
  · intro waiting member
    simp only [Backlog.pending_push] at member
    rcases List.mem_append.mp member with before | new
    · exact sure.waiting waiting before
    · rw [List.mem_singleton.mp new]
      exact ⟨data, holds, known⟩
  · intro key bound found
    simp only [Memory.getElem?_insertIfNew] at found
    by_cases new : chunk.key = key ∧ state.1.1[key]? = none
    · rw [if_pos new, Option.some.injEq] at found
      exact ⟨data, found ▸ holds, new.1 ▸ known⟩
    · rw [if_neg new] at found
      exact sure.held key bound found
  · intro clean key bound other found otherHolds
    simp only [Memory.getElem?_insertIfNew] at found
    by_cases new : chunk.key = key ∧ state.1.1[key]? = none
    · exact .inl ⟨chunk, waits, new.1⟩
    · rw [if_neg new] at found
      rcases sure.safe clean key bound other found otherHolds with ⟨waiting, member, same⟩ | held
      · exact .inl ⟨waiting, old member, same⟩
      · exact .inr held
  · simp only [Memory.getElem?_insertIfNew]
    cases bound : state.1.1[chunk.key]? with
    | none => exact ⟨chunk, by simp, holds⟩
    | some first =>
        obtain ⟨other, firstHolds, otherKnown⟩ := sure.held _ first bound
        refine ⟨first, by simp, ?_⟩
        rw [firstHolds, distinct.single _ _ _ otherKnown known]

end Program

end ChunkTree
