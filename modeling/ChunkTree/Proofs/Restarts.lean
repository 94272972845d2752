import ChunkTree.Proofs.Recording
import ChunkTree.Proofs.Memory
import ChunkTree.Archive
import Mathlib.Data.Set.Card

/-!
# Storing again and by turns

Splits may take turns to put their chunks into one store in memory, and each may stop early or come
again.  As long as no two of the chunks that are put share a key and differ in their data, the
store is left with exactly these chunks (`Memory.Unites`), so neither the order of the turns nor
what is put again makes a difference (`Storing.unites_run`).

A split that a failing put ends has put the first of its chunks and no others, and after that the
whole split leaves the store that it leaves without the first attempt (`Job.Restartable`).
-/

namespace ChunkTree

variable {σ τ ι : Type}

/-- No two of the chunks share a key and differ in their data. -/
def Chunk.Unambiguous (put : Chunk → Prop) : Prop :=
  ∀ one other : Chunk, put one → put other → one.key = other.key → one.data = other.data

namespace Memory

variable {memory : Memory} {put : Chunk → Prop}

/-- Bound in memory are exactly these chunks, each under its key. -/
def Unites (memory : Memory) (put : Chunk → Prop) : Prop :=
  ∀ (key : Key) (chunk : Chunk), memory[key]? = some chunk ↔ chunk.key = key ∧ put chunk

theorem unites_empty : Unites ∅ fun _ => False := by
  intro key chunk
  rw [Std.ExtTreeMap.getElem?_empty]
  simp

/-- Another chunk joins what is bound, unless it is bound already. -/
theorem Unites.insertIfNew (unites : memory.Unites put) {chunk : Chunk}
    (agrees : ∀ other, put other → other.key = chunk.key → other = chunk) :
    Unites (memory.insertIfNew chunk.key chunk) fun other => put other ∨ chunk = other := by
  intro key other
  rw [getElem?_insertIfNew]
  by_cases new : chunk.key = key ∧ memory[key]? = none
  · obtain ⟨rfl, free⟩ := new
    rw [if_pos ⟨rfl, free⟩, Option.some.injEq]
    constructor
    · rintro rfl
      exact ⟨rfl, .inr rfl⟩
    · rintro ⟨same, bound | rfl⟩
      · rw [(unites chunk.key other).mpr ⟨same, bound⟩] at free
        cases free
      · rfl
  · rw [if_neg new, unites key other]
    refine and_congr_right fun same => ⟨.inl, ?_⟩
    rintro (bound | rfl)
    · exact bound
    · -- Its key is taken, and no other chunk could have taken it.
      obtain ⟨held, bound⟩ := Option.ne_none_iff_exists'.mp fun free => new ⟨same, free⟩
      obtain ⟨heldKey, heldPut⟩ := (unites key held).mp bound
      exact agrees held heldPut (heldKey.trans same.symm) ▸ heldPut

theorem Unites.congr (unites : memory.Unites put) {also : Chunk → Prop}
    (same : ∀ chunk, also chunk ↔ put chunk) : memory.Unites also := by
  intro key chunk
  rw [same chunk]
  exact unites key chunk

/-- What is bound is all that there is to know of a memory. -/
theorem Unites.eq {other : Memory} (unites : memory.Unites put) (second : other.Unites put) :
    memory = other := by
  apply Std.ExtTreeMap.ext_getElem?
  intro key
  apply Option.ext
  intro chunk
  rw [unites key chunk, second key chunk]

/-- There are as many entries as different keys. -/
theorem Unites.size_eq (unites : memory.Unites put) :
    memory.size = {key | ∃ chunk, put chunk ∧ chunk.key = key}.ncard := by
  have keys : {key | ∃ chunk, put chunk ∧ chunk.key = key} = (memory.keys.toFinset : Set Key) := by
    ext key
    rw [Finset.mem_coe, List.mem_toFinset, Std.ExtTreeMap.mem_keys,
      Std.ExtTreeMap.mem_iff_isSome_getElem?, Option.isSome_iff_exists, Set.mem_ofPred_eq]
    exact exists_congr fun chunk => and_comm.trans (unites key chunk).symm
  rw [keys, Set.ncard_coe_finset, List.toFinset_card_of_nodup Std.ExtTreeMap.nodup_keys,
    Std.ExtTreeMap.length_keys]

theorem putAll_append (memory : Memory) (first second : List Chunk) :
    memory.putAll (first ++ second) = (memory.putAll first).putAll second :=
  List.foldl_append

theorem putAll_cons {chunk : Chunk} (filled : ¬ chunk.isRequest) (memory : Memory)
    (rest : List Chunk) :
    memory.putAll (chunk :: rest) = putAll (memory.insertIfNew chunk.key chunk) rest := by
  rw [putAll, List.foldl_cons, run_put, if_neg filled]
  rfl

/-- What was put has its key taken. -/
theorem bound_putAll {chunks : List Chunk} (filled : ∀ chunk ∈ chunks, ¬ chunk.isRequest)
    (memory : Memory) {chunk : Chunk} (member : chunk ∈ chunks) :
    (memory.putAll chunks)[chunk.key]? ≠ none := by
  induction chunks generalizing memory with
  | nil => exact absurd member List.not_mem_nil
  | cons first rest ih =>
      rw [putAll_cons (filled first List.mem_cons_self)]
      rcases List.mem_cons.mp member with rfl | later
      · have taken : (memory.insertIfNew chunk.key chunk)[chunk.key]? ≠ none := by
          rw [getElem?_insertIfNew]
          by_cases free : memory[chunk.key]? = none
          · rw [if_pos ⟨rfl, free⟩]
            exact Option.some_ne_none _
          · rw [if_neg fun new => free new.2]
            exact free
        obtain ⟨held, bound⟩ := Option.ne_none_iff_exists'.mp taken
        rw [extends_putAll rest _ _ _ bound]
        exact Option.some_ne_none _
      · exact ih (fun other member => filled other (List.mem_cons_of_mem _ member)) _ later

/-- Puts under keys that are taken change nothing. -/
theorem putAll_of_bound {chunks : List Chunk}
    (bound : ∀ chunk ∈ chunks, memory[chunk.key]? ≠ none) : memory.putAll chunks = memory := by
  induction chunks with
  | nil => rfl
  | cons chunk rest ih =>
      have same : ((put chunk).run memory).2 = memory := by
        rw [run_put]
        by_cases request : chunk.isRequest
        · rw [if_pos request]
        · rw [if_neg request]
          refine Std.ExtTreeMap.ext_getElem? fun key => ?_
          rw [getElem?_insertIfNew, if_neg]
          rintro ⟨rfl, free⟩
          exact bound chunk List.mem_cons_self free
      have rest := ih fun other member => bound other (List.mem_cons_of_mem _ member)
      rw [putAll, List.foldl_cons, same]
      exact rest

/-- Chunks of which the first were put before are put as if they had not been. -/
theorem putAll_take_putAll {chunks : List Chunk} (filled : ∀ chunk ∈ chunks, ¬ chunk.isRequest)
    (memory : Memory) (count : Nat) :
    (memory.putAll (chunks.take count)).putAll chunks = memory.putAll chunks := by
  have bound := fun chunk (member : chunk ∈ chunks.take count) =>
    bound_putAll (fun other early => filled other (List.mem_of_mem_take early)) memory member
  calc (memory.putAll (chunks.take count)).putAll chunks
      = ((memory.putAll (chunks.take count)).putAll (chunks.take count)).putAll
          (chunks.drop count) := by
        rw [← putAll_append _ (chunks.take count) (chunks.drop count), List.take_append_drop]
    _ = (memory.putAll (chunks.take count)).putAll (chunks.drop count) := by
        rw [putAll_of_bound bound]
    _ = memory.putAll chunks := by
        rw [← putAll_append, List.take_append_drop]

/-- Puts of chunks with data succeed. -/
theorem run_forM_put {chunks : List Chunk} (filled : ∀ chunk ∈ chunks, ¬ chunk.isRequest)
    (memory : Memory) :
    (forM chunks Memory.put : Action Memory PUnit).run memory = (.ok (), memory.putAll chunks) := by
  induction chunks generalizing memory with
  | nil => rfl
  | cons chunk rest ih =>
      have here := filled chunk List.mem_cons_self
      rw [List.forM_cons, Action.run_bind, run_put, if_neg here, putAll_cons here]
      exact ih (fun other member => filled other (List.mem_cons_of_mem _ member)) _

/-- Memory behind a gate, which may refuse chunks by any rule and with any fault. -/
def gated (gate : Chunk → Action τ Unit) : Store (Memory × τ) where
  put chunk := do
    (gate chunk).within .snd
    (Memory.put chunk).within .fst
  get key := (Memory.get key).within .fst

/-- Puts through a gate end at the first chunk that is refused, with all before it in memory. -/
theorem run_forM_gated (gate : Chunk → Action τ Unit) {chunks : List Chunk}
    (filled : ∀ chunk ∈ chunks, ¬ chunk.isRequest) (memory : Memory) (guard : τ) :
    ∃ count after,
      (chunks.length ≤ count ∧ (forM chunks (gated gate).put : Action (Memory × τ) PUnit).run
          (memory, guard) = (.ok (), memory.putAll (chunks.take count), after)) ∨
        ∃ chunk fault state, chunks[count]? = some chunk ∧
          (gate chunk).run state = (.error fault, after) ∧
          (forM chunks (gated gate).put : Action (Memory × τ) PUnit).run (memory, guard) =
            (.error fault, memory.putAll (chunks.take count), after) := by
  induction chunks generalizing memory guard with
  | nil => exact ⟨0, guard, .inl ⟨le_rfl, rfl⟩⟩
  | cons chunk rest ih =>
      have here := filled chunk List.mem_cons_self
      rcases passed : (gate chunk).run guard with ⟨fault | _, next⟩
      · refine ⟨0, next, .inr ⟨chunk, fault, guard, rfl, passed, ?_⟩⟩
        rw [List.forM_cons, Action.run_bind]
        simp only [gated, Action.run_bind, Action.run_within, Place.snd, passed]
        rfl
      · have first : ((gated gate).put chunk).run (memory, guard) =
            (.ok (), memory.insertIfNew chunk.key chunk, next) := by
          simp only [gated, Action.run_bind, Action.run_within, Place.snd, Place.fst, passed,
            run_put, if_neg here]
        obtain ⟨count, after, ended⟩ :=
          ih (fun other member => filled other (List.mem_cons_of_mem _ member))
            (memory.insertIfNew chunk.key chunk) next
        refine ⟨count + 1, after, ?_⟩
        rw [List.take_succ_cons, putAll_cons here, List.getElem?_cons_succ, List.forM_cons,
          Action.run_bind, first, List.length_cons, Nat.succ_le_succ_iff]
        exact ended

end Memory

/-- Some content, and the chunker that is to split it. -/
structure Job where
  chunker : Chunker
  content : Bytes

namespace Job

/-- The chunks that are put for the job, in their order. -/
def chunks (job : Job) : List Chunk := job.chunker.emission job.content

/-- How the job ends if no put fails: with the root key, if there is one. -/
def answer (job : Job) : Except Fault Key := job.chunker.answer job.content

/-- Keeps the content in a store. -/
def keep (job : Job) (store : Store σ) : Action σ Key :=
  (⟨job.chunker, store⟩ : Archive σ).keepBytes job.content

theorem filled (job : Job) : ∀ chunk ∈ job.chunks, ¬ chunk.isRequest :=
  fun _ member => (Chunker.stamped_of_mem_emission member).filled

/-- Any store is given the chunks of the job, one after the other. -/
theorem keep_eq (job : Job) (store : Store σ) :
    job.keep store = (do forM job.chunks store.put; .lift job.answer) :=
  Chunker.split_ofBytes store.put job.content

theorem run_keep (job : Job) (memory : Memory) :
    (job.keep Memory.store).run memory = (job.answer, memory.putAll job.chunks) := by
  rw [keep_eq, Action.run_bind]
  simp only [Memory.store]
  rw [Memory.run_forM_put job.filled]
  rfl

/-- A job may end early and be done again.

* Any store is given the same chunks in the same order, up to the first put that fails.
* In memory, the whole job puts them all.
* Where memory refuses chunks, by whatever rule, the job ends with the first refusal, and it has put
  the chunks before this one and no others; and if none is refused, it has put all.
* With the first of its chunks put before, however many, it leaves the same memory as without them
  and ends with the same answer. -/
structure Restartable (job : Job) : Prop where
  puts : ∀ {σ : Type} (store : Store σ),
    job.keep store = (do forM job.chunks store.put; .lift job.answer)
  whole : ∀ memory, (job.keep Memory.store).run memory = (job.answer, memory.putAll job.chunks)
  cut : ∀ {τ : Type} (gate : Chunk → Action τ Unit) (memory : Memory) (guard : τ), ∃ count after,
    (job.chunks.length ≤ count ∧ (job.keep (Memory.gated gate)).run (memory, guard) =
        (job.answer, memory.putAll (job.chunks.take count), after)) ∨
      ∃ chunk fault state, job.chunks[count]? = some chunk ∧
        (gate chunk).run state = (.error fault, after) ∧
        (job.keep (Memory.gated gate)).run (memory, guard) =
          (.error fault, memory.putAll (job.chunks.take count), after)
  again : ∀ count memory, (job.keep Memory.store).run (memory.putAll (job.chunks.take count)) =
    (job.keep Memory.store).run memory

theorem restartable (job : Job) : job.Restartable where
  puts := job.keep_eq
  whole := job.run_keep
  cut gate memory guard := by
    obtain ⟨count, after, ended⟩ := Memory.run_forM_gated gate job.filled memory guard
    refine ⟨count, after, ?_⟩
    rw [keep_eq, Action.run_bind]
    rcases ended with ⟨all, ran⟩ | ⟨chunk, fault, state, next, refused, ran⟩
    · rw [ran]
      exact .inl ⟨all, rfl⟩
    · rw [ran]
      exact .inr ⟨chunk, fault, state, next, refused, rfl⟩
  again count memory := by
    rw [run_keep, run_keep, Memory.putAll_take_putAll job.filled]

end Job

/-- Jobs that take turns to put their chunks into one memory: what is in memory, and how many turns
each job has had. -/
structure Storing (ι : Type) where
  memory : Memory
  position : ι → Nat

namespace Storing

section Turns

variable [DecidableEq ι]

/-- Nothing is put yet. -/
def start : Storing ι := ⟨∅, fun _ => 0⟩

/-- A job puts its next chunk.  With none left it lets the turn pass. -/
def step (jobs : ι → Job) (storing : Storing ι) (job : ι) : Storing ι where
  memory := match (jobs job).chunks[storing.position job]? with
    | some chunk => ((Memory.put chunk).run storing.memory).2
    | none => storing.memory
  position := Function.update storing.position job (storing.position job + 1)

/-- One turn after the other. -/
def run (jobs : ι → Job) (turns : List ι) : Storing ι := turns.foldl (step jobs) start

/-- The chunk was put in one of the turns: it is among the first of a job that has had as many. -/
def Put (jobs : ι → Job) (turns : List ι) (chunk : Chunk) : Prop :=
  ∃ job, chunk ∈ (jobs job).chunks.take (turns.count job)

variable {jobs : ι → Job}

theorem run_concat (turns : List ι) (job : ι) :
    run jobs (turns ++ [job]) = (run jobs turns).step jobs job := by
  rw [run, List.foldl_concat]
  rfl

theorem position_run (turns : List ι) (job : ι) :
    (run jobs turns).position job = turns.count job := by
  induction turns using List.reverseRecOn with
  | nil => rfl
  | append_singleton turns last ih =>
      rw [run_concat, List.count_append, List.count_singleton]
      by_cases same : last = job
      · subst same
        simp only [step, Function.update_self, ih, beq_self_eq_true, ↓reduceIte]
      · simp only [step, Function.update_of_ne (Ne.symm same), ih, beq_iff_eq, same, ↓reduceIte,
          Nat.add_zero]

/-- Turns in a row are the split of a job, as far as it comes. -/
theorem memory_run_replicate (turns : List ι) {job : ι} (fresh : turns.count job = 0)
    (count : Nat) : (run jobs (turns ++ List.replicate count job)).memory =
      (run jobs turns).memory.putAll ((jobs job).chunks.take count) := by
  induction count with
  | zero => simp [Memory.putAll]
  | succ count ih =>
      have had : (run jobs (turns ++ List.replicate count job)).position job = count := by
        rw [position_run, List.count_append, fresh, List.count_replicate_self, Nat.zero_add]
      rw [List.replicate_succ', ← List.append_assoc, run_concat, step, had, ih, List.take_add_one,
        Memory.putAll_append]
      cases (jobs job).chunks[count]? with
      | none => rfl
      | some chunk => rfl

/-- In a turn the chunk at the job's position is put, if there is one. -/
theorem put_concat (turns : List ι) (job : ι) (chunk : Chunk) :
    Put jobs (turns ++ [job]) chunk ↔
      Put jobs turns chunk ∨ (jobs job).chunks[turns.count job]? = some chunk := by
  have own : (turns ++ [job]).count job = turns.count job + 1 := by simp
  have others : ∀ other, job ≠ other → (turns ++ [job]).count other = turns.count other := by
    intro other different
    simp [different]
  constructor
  · rintro ⟨other, member⟩
    by_cases same : job = other
    · subst same
      rw [own, List.take_add_one, List.mem_append, Option.mem_toList] at member
      exact member.imp (fun old => ⟨job, old⟩) id
    · rw [others other same] at member
      exact .inl ⟨other, member⟩
  · rintro (⟨other, member⟩ | next)
    · refine ⟨other, List.take_subset_take_left _ ?_ member⟩
      rw [List.count_append]
      exact Nat.le_add_right _ _
    · refine ⟨job, ?_⟩
      rw [own, List.take_add_one, List.mem_append, Option.mem_toList]
      exact .inr next

variable (jobs) in
/-- Jobs that take turns leave in memory exactly the chunks that were put. -/
theorem unites_run (turns : List ι) (distinct : Chunk.Unambiguous (Put jobs turns)) :
    (run jobs turns).memory.Unites (Put jobs turns) := by
  induction turns using List.reverseRecOn with
  | nil =>
      refine Memory.unites_empty.congr fun chunk => ?_
      simp [Put]
  | append_singleton turns job ih =>
      have before : (run jobs turns).memory.Unites (Put jobs turns) :=
        ih fun one other put otherPut =>
          distinct one other ((put_concat turns job one).mpr (.inl put))
            ((put_concat turns job other).mpr (.inl otherPut))
      refine Memory.Unites.congr ?_ (put_concat turns job)
      rw [run_concat, step, position_run]
      rcases next : (jobs job).chunks[turns.count job]? with _ | chunk
      · simpa using before
      · have member : chunk ∈ (jobs job).chunks := List.mem_of_getElem? next
        simp only [Memory.run_put, if_neg ((jobs job).filled chunk member), Option.some.injEq]
        refine before.insertIfNew fun other put same => ?_
        have stamped : other.Stamped := by
          obtain ⟨source, early⟩ := put
          exact Chunker.stamped_of_mem_emission (List.mem_of_mem_take early)
        refine stamped.eq (Chunker.stamped_of_mem_emission member) same ?_
        exact distinct other chunk ((put_concat turns job other).mpr (.inl put))
          ((put_concat turns job chunk).mpr (.inr next)) same

/-- One job that is done again and again has put its chunks once it came to its end one time. -/
theorem put_repeated_iff {job : Job} {turns : List ι} (time : ι)
    (done : job.chunks.length ≤ turns.count time) (chunk : Chunk) :
    Put (fun _ => job) turns chunk ↔ chunk ∈ job.chunks := by
  constructor
  · rintro ⟨_, early⟩
    exact List.mem_of_mem_take early
  · intro member
    refine ⟨time, ?_⟩
    rw [List.take_of_length_le done]
    exact member

end Turns

/-- **Storing in any order, again and again.** When any number of jobs have taken turns in any
order, whether they came to their ends or not, and no two of the chunks that were put share a key
and differ in data, then bound in memory are exactly these chunks, with one entry for every key.
Any other jobs that put the same chunks in their own order, and however often, leave the same
memory.  Turns in a row are a split, as far as it comes; and each of the jobs is a split that may
end early, and be done again. -/
theorem unites_of_turns [DecidableEq ι] (jobs : ι → Job) (turns : List ι)
    (distinct : Chunk.Unambiguous (Put jobs turns)) :
    (run jobs turns).memory.Unites (Put jobs turns) ∧
      (run jobs turns).memory.size = {key | ∃ chunk, Put jobs turns chunk ∧ chunk.key = key}.ncard ∧
      (∀ {κ : Type} [DecidableEq κ] (others : κ → Job) (otherTurns : List κ),
        (∀ chunk, Put others otherTurns chunk ↔ Put jobs turns chunk) →
          (run others otherTurns).memory = (run jobs turns).memory) ∧
      (∀ job count, turns.count job = 0 →
        (run jobs (turns ++ List.replicate count job)).memory =
          (run jobs turns).memory.putAll ((jobs job).chunks.take count)) ∧
      ∀ job, (jobs job).Restartable := by
  have unites := unites_run jobs turns distinct
  refine ⟨unites, unites.size_eq, fun others otherTurns same => ?_,
    fun job count fresh => memory_run_replicate turns fresh count,
    fun job => (jobs job).restartable⟩
  have alike := unites_run others otherTurns fun one other put otherPut =>
    distinct one other ((same one).mp put) ((same other).mp otherPut)
  exact (alike.congr fun chunk => (same chunk).symm).eq unites

/-- Five bytes that are to be split with the chunker of short keys. -/
def fiveBytes : Job := ⟨Chunker.tiny, #[1, 2, 3, 4, 5]⟩

/-- One of two splits is cut short, and the other goes on between its turns: what is left is as if
there had been only the whole one. -/
theorem unites_of_turns_five_bytes :
    Chunk.Unambiguous (Put (fun _ : Bool => fiveBytes) [true, false, false, true, true]) ∧
      (run (fun _ : Unit => fiveBytes) [(), (), ()]).memory =
        (run (fun _ : Bool => fiveBytes) [true, false, false, true, true]).memory := by
  have known : fiveBytes.chunks = Chunker.tinyLeaves ++ [Chunker.tinyRoot] := by
    decide +kernel
  have apart : ∀ one ∈ Chunker.tinyLeaves ++ [Chunker.tinyRoot],
      ∀ other ∈ Chunker.tinyLeaves ++ [Chunker.tinyRoot],
        one.key = other.key → one.data = other.data := by
    decide
  have both : ∀ chunk, Put (fun _ : Bool => fiveBytes) [true, false, false, true, true] chunk ↔
      chunk ∈ fiveBytes.chunks := put_repeated_iff true (by rw [known]; decide)
  have alone : ∀ chunk, Put (fun _ : Unit => fiveBytes) [(), (), ()] chunk ↔
      chunk ∈ fiveBytes.chunks := put_repeated_iff () (by rw [known]; decide)
  have distinct : Chunk.Unambiguous
      (Put (fun _ : Bool => fiveBytes) [true, false, false, true, true]) := by
    intro one other put otherPut
    rw [both, known] at put otherPut
    exact apart one put other otherPut
  exact ⟨distinct, (unites_of_turns _ _ distinct).2.2.1 _ _ fun chunk =>
    (alone chunk).trans (both chunk).symm⟩

end Storing

end ChunkTree
