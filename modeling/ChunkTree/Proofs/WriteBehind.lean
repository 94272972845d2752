import ChunkTree.Store.Tiered
import Mathlib.Algebra.BigOperators.Group.Finset.Basic
import Mathlib.Algebra.BigOperators.Group.Finset.Piecewise
import Mathlib.Data.Fintype.Basic
import Mathlib.Data.List.Perm.Basic

/-!
# Writing behind the callers

Several callers put into a tiered store while its worker is busy, and each of them can be anywhere in
what it does.  A put hands the chunk to the fast tier, then counts the write, then queues it; the worker
takes a write from the queue, hands it to the durable tier, notes a failure and takes the write off the
count.  A `Session` is such a store in use, and any moves in any order take it from state to state.

Whatever the tiers do, no write is lost, made twice or moved before another of its caller, and the
counter accounts for every write that has not come to its end (`Session.faithful_run`).  A put and a
step of the worker that nothing comes between are those of `Tiered.put` and `Tiered.work`
(`Session.state_run_put`, `Session.state_run_round`).
-/

namespace ChunkTree.Tiered

variable {σ ι : Type}

/-- How far a caller has come with a put. -/
inductive Putting where
  | idle
  /-- The fast tier has the chunk. -/
  | kept (chunk : Chunk)
  /-- The write is on the count, and not queued yet. -/
  | counted (chunk : Chunk)
deriving DecidableEq

namespace Putting

/-- The chunk that the fast tier has and the queue has not had yet. -/
def held : Putting → List Chunk
  | idle => []
  | kept chunk | counted chunk => [chunk]

/-- How many writes are still to be counted. -/
def uncounted : Putting → Nat
  | kept _ => 1
  | idle | counted _ => 0

/-- How many writes are counted and still to be queued. -/
def unqueued : Putting → Nat
  | counted _ => 1
  | idle | kept _ => 0

end Putting

/-- How far the worker has come with a write. -/
inductive Writing where
  | idle
  /-- The durable tier is at it. -/
  | handed (chunk : Chunk)
  /-- The durable tier has ended, and the write is still on the count. -/
  | answered

namespace Writing

/-- How many writes have left the queue and are still on the count. -/
def busy : Writing → Nat
  | idle => 0
  | handed _ | answered => 1

/-- How many writes the durable tier is at. -/
def unanswered : Writing → Nat
  | handed _ => 1
  | idle | answered => 0

end Writing

/-- A tiered store in use by its callers and its worker, with what has happened so far.  Nothing is
decided by what has happened. -/
structure Session (σ ι : Type) where
  state : σ × Backlog
  /-- The counter of the writes that are on their way. -/
  pending : Nat
  callers : ι → Putting
  worker : Writing
  /-- The chunks that the fast tier has taken, and from whom. -/
  accepted : List (ι × Chunk)
  /-- The chunks that were queued, and by whom. -/
  queued : List (ι × Chunk)
  /-- The chunks that were handed to the durable tier. -/
  handed : List Chunk
  /-- How the puts of the durable tier have ended. -/
  answers : List (Except Fault Unit)
  /-- How many writes the worker has come to the end of. -/
  ended : Nat
  /-- No put has begun while another was under way. -/
  serial : Bool

/-- What can be done next by a caller, by the worker, or by whoever else uses the tiers. -/
inductive Move (σ ι : Type) where
  | begin (caller : ι) (chunk : Chunk)
  | count (caller : ι)
  | queue (caller : ι)
  | get (key : Key)
  | take
  | write
  | finish
  | elsewhere (change : σ → σ)

namespace Session

/-- Nobody has done anything yet. -/
def start (tiers : σ) : Session σ ι where
  state := (tiers, .empty)
  pending := 0
  callers _ := .idle
  worker := .idle
  accepted := []
  queued := []
  handed := []
  answers := []
  ended := 0
  serial := true

/-- No put is under way. -/
def Resting (session : Session σ ι) : Prop := ∀ caller, session.callers caller = .idle

variable [Fintype ι] [DecidableEq ι]

instance (session : Session σ ι) : Decidable session.Resting :=
  inferInstanceAs (Decidable (∀ caller, session.callers caller = .idle))

/-- A caller comes to another point of its put. -/
def place (session : Session σ ι) (caller : ι) (point : Putting) : ι → Putting :=
  Function.update session.callers caller point

/-- What a move makes of a session.  Whoever is not at the point for a move does nothing. -/
def step (fast durable : Store σ) (session : Session σ ι) : Move σ ι → Session σ ι
  | .begin caller chunk => match session.callers caller with
    | .idle => match (fast.put chunk).run session.state.1 with
      | (.ok (), tiers) =>
        { session with
          state := (tiers, session.state.2)
          callers := session.place caller (.kept chunk)
          accepted := session.accepted ++ [(caller, chunk)]
          serial := session.serial && decide session.Resting }
      | (.error _, tiers) => { session with state := (tiers, session.state.2) }
    | _ => session
  | .count caller => match session.callers caller with
    | .kept chunk =>
      { session with
        pending := session.pending + 1
        callers := session.place caller (.counted chunk) }
    | _ => session
  | .queue caller => match session.callers caller with
    | .counted chunk =>
      { session with
        state := (session.state.1, session.state.2.push chunk)
        callers := session.place caller .idle
        queued := session.queued ++ [(caller, chunk)] }
    | _ => session
  | .get key => { session with state := ((Tiered.get fast durable key).run session.state).2 }
  | .take => match session.worker, session.state.2.pop? with
    | .idle, some (chunk, rest) =>
      { session with
        state := (session.state.1, rest)
        worker := .handed chunk
        handed := session.handed ++ [chunk] }
    | _, _ => session
  | .write => match session.worker with
    | .handed chunk => match (durable.put chunk).run session.state.1 with
      | (.ok (), tiers) =>
        { session with
          state := (tiers, session.state.2)
          worker := .answered
          answers := session.answers ++ [.ok ()] }
      | (.error fault, tiers) =>
        { session with
          state := (tiers, session.state.2.countFailure)
          worker := .answered
          answers := session.answers ++ [.error fault] }
    | _ => session
  | .finish => match session.worker with
    | .answered =>
      { session with pending := session.pending - 1, worker := .idle, ended := session.ended + 1 }
    | _ => session
  | .elsewhere change => { session with state := (change session.state.1, session.state.2) }

/-- One move after the other. -/
def run (fast durable : Store σ) (session : Session σ ι) (moves : List (Move σ ι)) : Session σ ι :=
  moves.foldl (step fast durable) session

/-- The moves of a put. -/
def putting (caller : ι) (chunk : Chunk) : List (Move σ ι) :=
  [.begin caller chunk, .count caller, .queue caller]

/-- The moves of the worker for one write. -/
def round : List (Move σ ι) := [.take, .write, .finish]

variable {fast durable : Store σ} {session : Session σ ι}

/-- What is added up over the callers changes with the one that moves. -/
theorem sum_place (amount : Putting → Nat) (session : Session σ ι) (caller : ι) (point : Putting)
    (before after : Nat) (old : amount (session.callers caller) = before)
    (new : amount point = after) :
    ∑ other, amount (session.place caller point other) + before =
      ∑ other, amount (session.callers other) + after := by
  have placed : (fun other => amount (session.place caller point other)) =
      Function.update (fun other => amount (session.callers other)) caller (amount point) := by
    funext other
    by_cases same : other = caller
    · subst same
      simp only [place, Function.update_self]
    · simp only [place, Function.update_of_ne same]
  rw [placed, Finset.sum_update_of_mem (Finset.mem_univ caller), Finset.sdiff_singleton_eq_erase,
    ← Finset.add_sum_erase Finset.univ (fun other => amount (session.callers other))
      (Finset.mem_univ caller), old, new]
  omega

/-- The books of a session: where every write is. -/
structure Accounts (session : Session σ ι) : Prop where
  order : session.handed ++ session.state.2.pending = session.queued.map Prod.snd
  callers : ∀ caller, session.queued.filter (·.1 = caller) ++
    (session.callers caller).held.map (caller, ·) = session.accepted.filter (·.1 = caller)
  accepted : session.accepted.length =
    ∑ caller, (session.callers caller).held.length + session.queued.length
  pending : session.pending = ∑ caller, (session.callers caller).unqueued +
    session.state.2.pending.length + session.worker.busy
  handed : session.handed.length = session.ended + session.worker.busy
  answers : session.handed.length = session.answers.length + session.worker.unanswered
  failed : session.state.2.failed = session.answers.countP (fun answer => !answer.isOk)
  /-- Puts that never met are queued in the order in which they began. -/
  serial : session.serial = true → session.Resting ∧ session.queued = session.accepted ∨
    ∃ caller chunk, (session.callers caller).held = [chunk] ∧
      (∀ other, other ≠ caller → session.callers other = .idle) ∧
      session.queued ++ [(caller, chunk)] = session.accepted

theorem accounts_start (tiers : σ) : (start tiers : Session σ ι).Accounts where
  order := rfl
  callers _ := rfl
  accepted := by simp [start, Putting.held]
  pending := by simp [start, Putting.unqueued, Writing.busy]
  handed := rfl
  answers := rfl
  failed := rfl
  serial _ := .inl ⟨fun _ => rfl, rfl⟩

/-- A get does nothing to the writes that wait. -/
theorem backlog_run_get (fast durable : Store σ) (key : Key) (state : σ × Backlog) :
    ((Tiered.get fast durable key).run state).2.2 = state.2 := by
  rw [Tiered.get, Action.run_bind, Action.run_within]
  rcases (fast.get key).run (Place.fst.view state) with ⟨fault | _ | chunk, tiers⟩
  · rfl
  · rfl
  · rfl

/-- The books do not depend on what the tiers hold. -/
theorem Accounts.of_tiers (accounts : session.Accounts) (tiers : σ) :
    Accounts { session with state := (tiers, session.state.2) } where
  order := accounts.order
  callers := accounts.callers
  accepted := accounts.accepted
  pending := accounts.pending
  handed := accounts.handed
  answers := accounts.answers
  failed := accounts.failed
  serial := accounts.serial

theorem Accounts.begin (accounts : session.Accounts) {caller : ι} (idle : session.callers caller = .idle)
    (chunk : Chunk) (tiers : σ) :
    Accounts { session with
      state := (tiers, session.state.2)
      callers := session.place caller (.kept chunk)
      accepted := session.accepted ++ [(caller, chunk)]
      serial := session.serial && decide session.Resting } where
  order := accounts.order
  callers other := by
    have books := accounts.callers other
    rw [List.filter_append, ← books]
    by_cases same : other = caller
    · subst same
      simp [place, idle, Putting.held]
    · simp [place, Function.update_of_ne same, Ne.symm same]
  accepted := by
    have added := sum_place (fun point => point.held.length) session caller (.kept chunk) 0 1
      (by rw [idle]; rfl) rfl
    have books := accounts.accepted
    rw [List.length_append, List.length_singleton]
    simp only
    omega
  pending := by
    have added := sum_place Putting.unqueued session caller (.kept chunk) 0 0 (by rw [idle]; rfl) rfl
    have books := accounts.pending
    simp only
    omega
  handed := accounts.handed
  answers := accounts.answers
  failed := accounts.failed
  serial met := by
    simp only [Bool.and_eq_true, decide_eq_true_eq] at met
    obtain ⟨serial, resting⟩ := met
    refine .inr ⟨caller, chunk, ?_, ?_, ?_⟩
    · simp only [place, Function.update_self, Putting.held]
    · intro other apart
      simp only [place, Function.update_of_ne apart]
      exact resting other
    · rcases accounts.serial serial with ⟨-, same⟩ | ⟨busy, held, some, -, -⟩
      · rw [same]
      · rw [resting busy] at some
        cases some

theorem Accounts.count (accounts : session.Accounts) {caller : ι} {chunk : Chunk}
    (kept : session.callers caller = .kept chunk) :
    Accounts { session with
      pending := session.pending + 1
      callers := session.place caller (.counted chunk) } where
  order := accounts.order
  callers other := by
    have books := accounts.callers other
    rw [← books]
    by_cases same : other = caller
    · subst same
      simp only [place, Function.update_self, kept, Putting.held]
    · simp only [place, Function.update_of_ne same]
  accepted := by
    have added := sum_place (fun point => point.held.length) session caller (.counted chunk) 1 1
      (by rw [kept]; rfl) rfl
    have books := accounts.accepted
    simp only
    omega
  pending := by
    have added := sum_place Putting.unqueued session caller (.counted chunk) 0 1
      (by rw [kept]; rfl) rfl
    have books := accounts.pending
    simp only
    omega
  handed := accounts.handed
  answers := accounts.answers
  failed := accounts.failed
  serial met := by
    rcases accounts.serial met with ⟨resting, -⟩ | ⟨busy, held, some, idle, same⟩
    · rw [resting caller] at kept
      cases kept
    · have here : busy = caller := by
        by_contra apart
        rw [idle caller (Ne.symm apart)] at kept
        cases kept
      subst here
      refine .inr ⟨busy, held, ?_, ?_, same⟩
      · rw [kept] at some
        simp only [place, Function.update_self]
        exact some
      · intro other apart
        simp only [place, Function.update_of_ne apart]
        exact idle other apart

theorem Accounts.queue (accounts : session.Accounts) {caller : ι} {chunk : Chunk}
    (counted : session.callers caller = .counted chunk) :
    Accounts { session with
      state := (session.state.1, session.state.2.push chunk)
      callers := session.place caller .idle
      queued := session.queued ++ [(caller, chunk)] } where
  order := by
    have books := accounts.order
    simp only [Backlog.pending_push, List.map_append, List.map_cons, List.map_nil]
    rw [← books, List.append_assoc]
  callers other := by
    have books := accounts.callers other
    rw [← books, List.filter_append]
    by_cases same : other = caller
    · subst same
      simp [place, counted, Putting.held]
    · simp [place, Function.update_of_ne same, Ne.symm same]
  accepted := by
    have added := sum_place (fun point => point.held.length) session caller .idle 1 0
      (by rw [counted]; rfl) rfl
    have books := accounts.accepted
    rw [List.length_append, List.length_singleton]
    simp only
    omega
  pending := by
    have added := sum_place Putting.unqueued session caller .idle 1 0 (by rw [counted]; rfl) rfl
    have books := accounts.pending
    simp only [Backlog.pending_push, List.length_append, List.length_singleton]
    omega
  handed := accounts.handed
  answers := accounts.answers
  failed := accounts.failed
  serial met := by
    rcases accounts.serial met with ⟨resting, -⟩ | ⟨busy, held, some, idle, same⟩
    · rw [resting caller] at counted
      cases counted
    · have here : busy = caller := by
        by_contra apart
        rw [idle caller (Ne.symm apart)] at counted
        cases counted
      subst here
      rw [counted] at some
      obtain rfl : chunk = held := List.singleton_inj.mp some
      refine .inl ⟨fun other => ?_, same⟩
      by_cases here : other = busy
      · subst here
        simp only [place, Function.update_self]
      · simp only [place, Function.update_of_ne here]
        exact idle other here

theorem Accounts.take (accounts : session.Accounts) (idle : session.worker = .idle) {chunk : Chunk}
    {rest : Backlog} (taken : session.state.2.pop? = some (chunk, rest)) :
    Accounts { session with
      state := (session.state.1, rest)
      worker := .handed chunk
      handed := session.handed ++ [chunk] } where
  order := by
    have books := accounts.order
    rw [Backlog.pending_of_pop? taken] at books
    rw [← books, List.append_assoc]
    rfl
  callers := accounts.callers
  accepted := accounts.accepted
  pending := by
    have books := accounts.pending
    rw [Backlog.pending_of_pop? taken, idle, List.length_cons] at books
    simp only [Writing.busy] at books ⊢
    omega
  handed := by
    have books := accounts.handed
    rw [idle] at books
    rw [List.length_append, List.length_singleton]
    simp only [Writing.busy] at books ⊢
    omega
  answers := by
    have books := accounts.answers
    rw [idle] at books
    rw [List.length_append, List.length_singleton]
    simp only [Writing.unanswered] at books ⊢
    omega
  failed := by
    have same : rest.failed = session.state.2.failed := Backlog.failed_of_pop? taken
    exact same.trans accounts.failed
  serial := accounts.serial

theorem Accounts.write (accounts : session.Accounts) {chunk : Chunk}
    (handed : session.worker = .handed chunk) (answer : Except Fault Unit) (backlog : Backlog)
    (waiting : backlog.pending = session.state.2.pending)
    (noted : backlog.failed = session.state.2.failed + if answer.isOk then 0 else 1) (tiers : σ) :
    Accounts { session with
      state := (tiers, backlog)
      worker := .answered
      answers := session.answers ++ [answer] } where
  order := by
    simp only [waiting]
    exact accounts.order
  callers := accounts.callers
  accepted := accounts.accepted
  pending := by
    have books := accounts.pending
    rw [handed] at books
    simp only [waiting]
    exact books
  handed := by
    have books := accounts.handed
    rw [handed] at books
    exact books
  answers := by
    have books := accounts.answers
    rw [handed] at books
    rw [List.length_append, List.length_singleton]
    exact books
  failed := by
    rw [List.countP_append, ← accounts.failed]
    simp only [noted]
    cases answer with
    | error fault => rfl
    | ok done => rfl
  serial := accounts.serial

theorem Accounts.finish (accounts : session.Accounts) (answered : session.worker = .answered) :
    Accounts { session with
      pending := session.pending - 1, worker := .idle, ended := session.ended + 1 } where
  order := accounts.order
  callers := accounts.callers
  accepted := accounts.accepted
  pending := by
    have books := accounts.pending
    rw [answered] at books
    simp only [Writing.busy] at books ⊢
    omega
  handed := by
    have books := accounts.handed
    rw [answered] at books
    simp only [Writing.busy] at books ⊢
    omega
  answers := by
    have books := accounts.answers
    rw [answered] at books
    exact books
  failed := accounts.failed
  serial := accounts.serial

/-- Every move keeps the books. -/
theorem accounts_step (accounts : session.Accounts) (move : Move σ ι) :
    (session.step fast durable move).Accounts := by
  cases move with
  | begin caller chunk =>
      rw [step]
      rcases point : session.callers caller with _ | held | held
      · rcases ran : (fast.put chunk).run session.state.1 with ⟨fault | done, tiers⟩
        · exact accounts.of_tiers tiers
        · exact accounts.begin point chunk tiers
      · exact accounts
      · exact accounts
  | count caller =>
      rw [step]
      rcases point : session.callers caller with _ | held | held
      · exact accounts
      · exact accounts.count point
      · exact accounts
  | queue caller =>
      rw [step]
      rcases point : session.callers caller with _ | held | held
      · exact accounts
      · exact accounts
      · exact accounts.queue point
  | get key =>
      have same : ((Tiered.get fast durable key).run session.state).2 =
          (((Tiered.get fast durable key).run session.state).2.1, session.state.2) :=
        Prod.ext rfl (backlog_run_get fast durable key session.state)
      rw [step, same]
      exact accounts.of_tiers _
  | take =>
      rw [step]
      rcases point : session.worker with _ | held | _
      · rcases taken : session.state.2.pop? with _ | ⟨chunk, rest⟩
        · exact accounts
        · exact accounts.take point taken
      · exact accounts
      · exact accounts
  | write =>
      rw [step]
      rcases point : session.worker with _ | held | _
      · exact accounts
      · rcases ran : (durable.put held).run session.state.1 with ⟨fault | done, tiers⟩
        · simp only [ran]
          exact accounts.write point (.error fault) session.state.2.countFailure rfl rfl tiers
        · simp only [ran]
          exact accounts.write point (.ok ()) session.state.2 rfl rfl tiers
      · exact accounts
  | finish =>
      rw [step]
      rcases point : session.worker with _ | held | _
      · exact accounts
      · exact accounts
      · exact accounts.finish point
  | elsewhere change => exact accounts.of_tiers _

/-- Any moves in any order keep the books. -/
theorem accounts_run (accounts : session.Accounts) (moves : List (Move σ ι)) :
    (session.run fast durable moves).Accounts := by
  induction moves generalizing session with
  | nil => exact accounts
  | cons move rest ih => exact ih (accounts_step accounts move)

theorem run_append (session : Session σ ι) (first second : List (Move σ ι)) :
    session.run fast durable (first ++ second) =
      (session.run fast durable first).run fast durable second :=
  List.foldl_append

/-- A put that nothing comes between is one put into both tiers. -/
theorem state_run_put {caller : ι} (idle : session.callers caller = .idle) (chunk : Chunk) :
    (session.run fast durable (putting caller chunk)).state =
      ((Tiered.put fast chunk).run session.state).2 := by
  have whole : (Tiered.put fast chunk).run session.state =
      match (fast.put chunk).run session.state.1 with
      | (.ok (), tiers) => (.ok (), (tiers, session.state.2.push chunk))
      | (.error fault, tiers) => (.error fault, (tiers, session.state.2)) := by
    rw [Tiered.put, Action.run_bind, Action.run_within]
    rcases ran : (fast.put chunk).run session.state.1 with ⟨fault | done, tiers⟩
    · simp only [Place.fst, ran]
    · simp only [Place.fst, ran, Action.run_update]
  rw [whole]
  rcases ran : (fast.put chunk).run session.state.1 with ⟨fault | done, tiers⟩
  · simp only [run, putting, List.foldl_cons, List.foldl_nil, step, idle, ran]
  · simp only [run, putting, List.foldl_cons, List.foldl_nil, step, idle, ran, place,
      Function.update_self]

/-- The moves of the worker for one write are one step of it. -/
theorem state_run_round (fast durable : Store σ) (idle : session.worker = .idle) :
    (session.run fast durable round).state = Tiered.work durable session.state ∧
      (session.run fast durable round).worker = .idle := by
  rw [Tiered.work]
  rcases taken : session.state.2.pop? with _ | ⟨chunk, rest⟩
  · simp only [run, round, List.foldl_cons, List.foldl_nil, step, idle, taken, and_self]
  · rcases ran : (durable.put chunk).run session.state.1 with ⟨fault | done, tiers⟩
    · simp only [run, round, List.foldl_cons, List.foldl_nil, step, idle, taken, ran, and_self]
    · simp only [run, round, List.foldl_cons, List.foldl_nil, step, idle, taken, ran, and_self]

/-- The moves of the worker for so many writes. -/
def rounds (count : Nat) : List (Move σ ι) := (List.replicate count round).flatten

/-- The moves of the worker for so many writes are so many steps of it. -/
theorem state_run_rounds (fast durable : Store σ) (idle : session.worker = .idle) (count : Nat) :
    (session.run fast durable (rounds count)).state =
        Nat.repeat (Tiered.work durable) count session.state ∧
      (session.run fast durable (rounds count)).worker = .idle := by
  induction count with
  | zero => exact ⟨rfl, idle⟩
  | succ count ih =>
      have last : (rounds (count + 1) : List (Move σ ι)) = rounds count ++ round := by
        rw [rounds, List.replicate_succ', List.flatten_append, List.flatten_singleton]
        rfl
      obtain ⟨steps, stopped⟩ := ih
      obtain ⟨step, again⟩ := state_run_round fast durable stopped
      rw [last, run_append]
      exact ⟨step.trans (congrArg (Tiered.work durable) steps), again⟩

/-- The moves that the worker makes by itself. -/
def OfWorker : Move σ ι → Prop
  | .take | .write | .finish => True
  | _ => False

/-- The worker has no part in what the callers do. -/
structure Beside (before after : Session σ ι) : Prop where
  callers : after.callers = before.callers
  accepted : after.accepted = before.accepted
  queued : after.queued = before.queued
  serial : after.serial = before.serial

theorem beside_step (fast durable : Store σ) (session : Session σ ι) {move : Move σ ι}
    (worker : OfWorker move) :
    session.Beside (session.step fast durable move) := by
  cases move with
  | take =>
      rw [step]
      rcases session.worker with _ | held | _
      · rcases session.state.2.pop? with _ | ⟨chunk, rest⟩
        · exact ⟨rfl, rfl, rfl, rfl⟩
        · exact ⟨rfl, rfl, rfl, rfl⟩
      · exact ⟨rfl, rfl, rfl, rfl⟩
      · exact ⟨rfl, rfl, rfl, rfl⟩
  | write =>
      rw [step]
      rcases session.worker with _ | held | _
      · exact ⟨rfl, rfl, rfl, rfl⟩
      · simp only
        rcases (durable.put held).run session.state.1 with ⟨fault | done, tiers⟩
        · exact ⟨rfl, rfl, rfl, rfl⟩
        · exact ⟨rfl, rfl, rfl, rfl⟩
      · exact ⟨rfl, rfl, rfl, rfl⟩
  | finish =>
      rw [step]
      rcases session.worker with _ | held | _
      · exact ⟨rfl, rfl, rfl, rfl⟩
      · exact ⟨rfl, rfl, rfl, rfl⟩
      · exact ⟨rfl, rfl, rfl, rfl⟩
  | begin caller chunk => exact worker.elim
  | count caller => exact worker.elim
  | queue caller => exact worker.elim
  | get key => exact worker.elim
  | elsewhere change => exact worker.elim

theorem beside_run (fast durable : Store σ) (session : Session σ ι) {moves : List (Move σ ι)}
    (worker : ∀ move ∈ moves, OfWorker move) : session.Beside (session.run fast durable moves) := by
  induction moves generalizing session with
  | nil => exact ⟨rfl, rfl, rfl, rfl⟩
  | cons move rest ih =>
      have first := beside_step fast durable session (worker move List.mem_cons_self)
      have last := ih (session.step fast durable move)
        fun other member => worker other (List.mem_cons_of_mem _ member)
      exact ⟨last.callers.trans first.callers, last.accepted.trans first.accepted,
        last.queued.trans first.queued, last.serial.trans first.serial⟩

/-- Wherever the worker is, it comes to the end of all that waits, whatever the durable tier does. -/
theorem exists_settled (fast durable : Store σ) (session : Session σ ι) :
    ∃ moves : List (Move σ ι), (∀ move ∈ moves, OfWorker move) ∧
      (session.run fast durable moves).worker = .idle ∧
      (session.run fast durable moves).state.2.pending = [] := by
  have mine : ∀ count, ∀ move ∈ (rounds count : List (Move σ ι)), OfWorker move := by
    intro count move member
    obtain ⟨moves, same, inside⟩ := List.mem_flatten.mp member
    rw [List.eq_of_mem_replicate same] at inside
    simp only [round, List.mem_cons, List.not_mem_nil, or_false] at inside
    rcases inside with rfl | rfl | rfl
    · trivial
    · trivial
    · trivial
  have idle : (session.run fast durable [.write, .finish]).worker = .idle := by
    rcases point : session.worker with _ | held | _
    · simp only [run, List.foldl_cons, List.foldl_nil, step, point]
    · rcases ran : (durable.put held).run session.state.1 with ⟨fault | done, tiers⟩
      · simp only [run, List.foldl_cons, List.foldl_nil, step, point, ran]
      · simp only [run, List.foldl_cons, List.foldl_nil, step, point, ran]
    · simp only [run, List.foldl_cons, List.foldl_nil, step, point]
  generalize free : session.run fast durable [.write, .finish] = freed at idle
  obtain ⟨steps, stopped⟩ := state_run_rounds fast durable idle freed.state.2.pending.length
  refine ⟨[.write, .finish] ++ rounds freed.state.2.pending.length, ?_, ?_, ?_⟩
  · intro move member
    rcases List.mem_append.mp member with first | later
    · simp only [List.mem_cons, List.not_mem_nil, or_false] at first
      rcases first with rfl | rfl
      · trivial
      · trivial
    · exact mine _ move later
  · rw [run_append, free]
    exact stopped
  · rw [run_append, free, steps]
    exact pending_flush durable freed.state

/-- Everything accepted has been handed to the durable tier, each chunk once, and nothing is on the
count.  Puts that never met are handed over in the order in which they were accepted. -/
structure Whole (session : Session σ ι) : Prop where
  handed : session.handed = session.queued.map Prod.snd
  once : session.handed.Perm (session.accepted.map Prod.snd)
  ordered : session.serial = true → session.handed = session.accepted.map Prod.snd
  ended : session.ended = session.accepted.length
  pending : session.pending = 0

/-- At rest, what was queued is what was accepted. -/
theorem Accounts.perm (accounts : session.Accounts) (resting : session.Resting) :
    session.queued.Perm session.accepted := by
  rw [List.perm_iff_count]
  intro put
  have books := accounts.callers put.1
  rw [resting put.1, Putting.held, List.map_nil, List.append_nil] at books
  have own : ∀ puts : List (ι × Chunk),
      (puts.filter (·.1 = put.1)).count put = puts.count put := fun puts =>
    List.count_filter (decide_eq_true rfl)
  rw [← own session.queued, books, own]

/-- Nothing is missing when no put is under way, the worker is idle and nothing waits. -/
theorem Accounts.whole (accounts : session.Accounts) (resting : session.Resting)
    (idle : session.worker = .idle) (nothing : session.state.2.pending = []) : session.Whole := by
  have order := accounts.order
  rw [nothing, List.append_nil] at order
  have perm := accounts.perm resting
  have ends := accounts.handed
  have lengths := congrArg List.length order
  rw [idle] at ends
  rw [List.length_map] at lengths
  have unqueued : ∑ caller, (session.callers caller).unqueued = 0 :=
    Finset.sum_eq_zero fun caller _ => by rw [resting caller]; rfl
  refine ⟨order, ?_, ?_, ?_, ?_⟩
  · rw [order]
    exact perm.map Prod.snd
  · intro serial
    rw [order]
    rcases accounts.serial serial with ⟨-, same⟩ | ⟨caller, chunk, some, -⟩
    · rw [same]
    · rw [resting caller] at some
      cases some
  · rw [← perm.length_eq, ← lengths, ends]
    rfl
  · rw [accounts.pending, unqueued, nothing, idle]
    rfl

/-- What a tiered store owes to those who use it. -/
structure Faithful (fast durable : Store σ) (session : Session σ ι) : Prop where
  /-- The chunks handed to the durable tier are the first of those queued, in order and each once. -/
  handed : session.handed <+: session.queued.map Prod.snd
  /-- What a caller has queued, and then what it is at, is what the fast tier has taken from it. -/
  queued : ∀ caller, session.queued.filter (·.1 = caller) ++
    (session.callers caller).held.map (caller, ·) = session.accepted.filter (·.1 = caller)
  /-- Puts that never met are handed over in the order in which the fast tier took them. -/
  ordered : session.serial = true → session.handed <+: session.accepted.map Prod.snd
  /-- The counter and the ended writes make up all that was taken, but for puts that have not come to
  the count. -/
  counted : session.pending + ∑ caller, (session.callers caller).uncounted + session.ended =
    session.accepted.length
  /-- With no put under way, the counter is the number of writes that are not at their end. -/
  pending : session.Resting → session.pending + session.ended = session.accepted.length
  /-- Every chunk handed over gets an answer, and every failure is noted. -/
  answered : session.handed.length = session.answers.length + session.worker.unanswered
  failed : session.state.2.failed = session.answers.countP (fun answer => !answer.isOk)
  /-- What the fast tier refuses changes nothing but the fast tier. -/
  refused : ∀ (caller : ι) (chunk : Chunk) (fault : Fault) (tiers : σ),
    session.callers caller = .idle →
    (fast.put chunk).run session.state.1 = (.error fault, tiers) →
      session.step fast durable (.begin caller chunk) =
        { session with state := (tiers, session.state.2) }
  /-- When the counter is down with no put under way, all is written. -/
  flushed : session.Resting → session.pending = 0 → session.Whole
  /-- When the worker finds nothing more with no put under way, all is written. -/
  stopped : session.Resting → session.worker = .idle → session.state.2.pending = [] → session.Whole
  /-- The worker comes to that by itself, whatever fails. -/
  settles : ∃ moves : List (Move σ ι), (∀ move ∈ moves, OfWorker move) ∧
    (session.run fast durable moves).worker = .idle ∧
    (session.run fast durable moves).state.2.pending = [] ∧
    (session.run fast durable moves).accepted = session.accepted ∧
    (session.Resting → (session.run fast durable moves).Whole)
  /-- The moves of a put, of a step of the worker and of a flush, with nothing between them. -/
  put_eq : ∀ (caller : ι) (chunk : Chunk), session.callers caller = .idle →
    (session.run fast durable (putting caller chunk)).state =
      ((Tiered.put fast chunk).run session.state).2
  work_eq : session.worker = .idle →
    (session.run fast durable round).state = Tiered.work durable session.state
  flush_eq : session.worker = .idle →
    (session.run fast durable (rounds session.state.2.pending.length)).state =
      Tiered.flush durable session.state

theorem Accounts.counted (accounts : session.Accounts) :
    session.pending + ∑ caller, (session.callers caller).uncounted + session.ended =
      session.accepted.length := by
  have point : ∀ point : Putting, point.held.length = point.uncounted + point.unqueued := by
    intro point
    cases point with
    | idle => rfl
    | kept chunk => rfl
    | counted chunk => rfl
  have sums : ∑ caller, (session.callers caller).held.length =
      ∑ caller, (session.callers caller).uncounted + ∑ caller, (session.callers caller).unqueued := by
    rw [← Finset.sum_add_distrib]
    exact Finset.sum_congr rfl fun caller _ => point _
  have lengths := congrArg List.length accounts.order
  rw [List.length_append, List.length_map] at lengths
  have pending := accounts.pending
  have handed := accounts.handed
  have accepted := accounts.accepted
  omega

/-- With no put under way and nothing on the count, nothing waits. -/
theorem Accounts.idle_of_pending (accounts : session.Accounts) (none : session.pending = 0) :
    session.worker = .idle ∧ session.state.2.pending = [] := by
  have pending := accounts.pending
  constructor
  · rcases point : session.worker with _ | held | _
    · rfl
    · rw [point, none, Writing.busy] at pending
      omega
    · rw [point, none, Writing.busy] at pending
      omega
  · rw [← List.length_eq_zero_iff]
    omega

/-- **A tiered store loses no write.**  Whatever its tiers do, and in whatever order its callers and its
worker go on, what is handed to the durable tier is what the fast tier has taken, each chunk once and
in order, the counters are true, and all is written when the counter is down. -/
theorem faithful_run (fast durable : Store σ) (tiers : σ) (moves : List (Move σ ι)) :
    ((start tiers).run fast durable moves).Faithful fast durable := by
  have accounts : ((start tiers).run fast durable moves).Accounts :=
    accounts_run (accounts_start tiers) moves
  generalize (start tiers).run fast durable moves = session at accounts ⊢
  have resting_uncounted : session.Resting → ∑ caller, (session.callers caller).uncounted = 0 :=
    fun resting => Finset.sum_eq_zero fun caller _ => by rw [resting caller]; rfl
  have handed : session.handed <+: session.queued.map Prod.snd :=
    ⟨session.state.2.pending, accounts.order⟩
  refine ⟨handed, accounts.callers, ?_, accounts.counted, ?_, accounts.answers, accounts.failed, ?_,
    ?_, accounts.whole, ?_, fun caller chunk idle => state_run_put idle chunk,
    fun idle => (state_run_round fast durable idle).1, fun idle => (state_run_rounds fast durable idle _).1⟩
  · intro serial
    refine handed.trans ?_
    rcases accounts.serial serial with ⟨-, same⟩ | ⟨caller, chunk, -, -, same⟩
    · rw [same]
    · exact ⟨[chunk], by rw [← same, List.map_append, List.map_singleton]⟩
  · intro resting
    have counted := accounts.counted
    rw [resting_uncounted resting] at counted
    exact counted
  · intro caller chunk fault tiers idle refused
    simp only [step, idle, refused]
  · intro resting none
    obtain ⟨idle, nothing⟩ := accounts.idle_of_pending none
    exact accounts.whole resting idle nothing
  · obtain ⟨moves, worker, idle, nothing⟩ := exists_settled fast durable session
    have beside := beside_run fast durable session worker
    refine ⟨moves, worker, idle, nothing, beside.accepted, fun resting => ?_⟩
    apply (accounts_run accounts moves).whole _ idle nothing
    intro caller
    rw [beside.callers]
    exact resting caller

end Session

end ChunkTree.Tiered
