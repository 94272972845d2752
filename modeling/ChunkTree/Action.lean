import ChunkTree.Fault

/-!
# Actions

An action runs on a state and ends with an answer or with a fault, in either case leaving a new
state: what happened before a fault stays done.  A `Place` is a part of a larger state, and an action
on the part is an action on the whole.
-/

namespace ChunkTree

variable {σ τ υ α β : Type}

/-- A run on a state `σ` that answers with an `α` or a fault. -/
def Action (σ α : Type) : Type := σ → Except Fault α × σ

namespace Action

/-- The outcome of an action on a state. -/
@[inline]
def run (action : Action σ α) (state : σ) : Except Fault α × σ := action state

/-- The action that runs as the given function does. -/
@[inline]
def of (outcome : σ → Except Fault α × σ) : Action σ α := outcome

@[inline]
protected def pure (answer : α) : Action σ α := of fun state => (.ok answer, state)

/-- The second action goes on with the answer and the state of the first; a fault of the first ends
both. -/
@[inline]
protected def bind (action : Action σ α) (next : α → Action σ β) : Action σ β := of fun state =>
  match action.run state with
  | (.ok answer, state) => (next answer).run state
  | (.error fault, state) => (.error fault, state)

instance : Monad (Action σ) where
  pure := Action.pure
  bind := Action.bind

/-- The action that only fails. -/
@[inline]
protected def throw (fault : Fault) : Action σ α := of fun state => (.error fault, state)

/-- Goes on after a fault, from the state it left. -/
@[inline]
def recover (action : Action σ α) (handler : Fault → Action σ α) : Action σ α := of fun state =>
  match action.run state with
  | (.ok answer, state) => (.ok answer, state)
  | (.error fault, state) => (handler fault).run state

instance : MonadExcept Fault (Action σ) where
  throw := Action.throw
  tryCatch := Action.recover

/-- The state, which stays as it is. -/
@[inline]
def state : Action σ σ := of fun state => (.ok state, state)

/-- Changes the state. -/
@[inline]
def update (change : σ → σ) : Action σ Unit := of fun state => (.ok (), change state)

/-- An outcome that does not depend on the state. -/
@[inline]
def lift (outcome : Except Fault α) : Action σ α := of fun state => (outcome, state)

/-- The outcome of an action as its answer: this never fails. -/
@[inline]
def attempt (action : Action σ α) : Action σ (Except Fault α) := of fun state =>
  match action.run state with
  | (outcome, state) => (.ok outcome, state)

/-- An action runs as its function does. -/
theorem run_of (outcome : σ → Except Fault α × σ) (state : σ) : (of outcome).run state = outcome state :=
  rfl

@[simp]
theorem run_pure (answer : α) (state : σ) : (pure answer : Action σ α).run state = (.ok answer, state) :=
  rfl

/-- How a sequence runs, by the outcome of its first action. -/
theorem run_bind (action : Action σ α) (next : α → Action σ β) (state : σ) :
    (action >>= next).run state = match action.run state with
      | (.ok answer, state) => (next answer).run state
      | (.error fault, state) => (.error fault, state) :=
  rfl

@[simp]
theorem run_throw (fault : Fault) (state : σ) :
    (throw fault : Action σ α).run state = (.error fault, state) :=
  rfl

@[simp]
theorem run_state (before : σ) : (state : Action σ σ).run before = (.ok before, before) :=
  rfl

@[simp]
theorem run_update (change : σ → σ) (before : σ) :
    (update change).run before = (.ok (), change before) :=
  rfl

@[simp]
theorem run_lift (outcome : Except Fault α) (state : σ) :
    (lift outcome : Action σ α).run state = (outcome, state) :=
  rfl

@[simp]
theorem run_attempt (action : Action σ α) (state : σ) :
    action.attempt.run state = (.ok (action.run state).1, (action.run state).2) :=
  rfl

/-- Two actions are the same if they run alike from every state. -/
@[ext]
theorem ext {first second : Action σ α} (alike : ∀ state, first.run state = second.run state) :
    first = second :=
  funext alike

/-- Doing nothing with an answer changes nothing. -/
theorem bind_pure_id (action : Action σ α) : id <$> action = action := by
  refine Action.ext fun state => ?_
  change (action.bind (Action.pure ∘ id)).run state = action.run state
  simp only [Action.bind, of, run]
  rcases action state with ⟨_ | _, _⟩ <;> rfl

/-- Sequences may be grouped either way. -/
theorem bind_bind {γ : Type} (action : Action σ α) (next : α → Action σ β) (last : β → Action σ γ) :
    action >>= next >>= last = action >>= fun answer => next answer >>= last := by
  refine Action.ext fun state => ?_
  simp only [run_bind]
  rcases action.run state with ⟨_ | _, _⟩ <;> rfl

instance : LawfulMonad (Action σ) :=
  LawfulMonad.mk' (Action σ) bind_pure_id (fun _ _ => rfl) bind_bind

end Action

/-- A part `τ` of a state `σ`: how to see it, and how to replace it. -/
structure Place (σ τ : Type) where
  view : σ → τ
  update : τ → σ → σ

namespace Place

/-- The first of two parts. -/
def fst : Place (σ × τ) σ := ⟨Prod.fst, fun part whole => (part, whole.2)⟩

/-- The second of two parts. -/
def snd : Place (σ × τ) τ := ⟨Prod.snd, fun part whole => (whole.1, part)⟩

/-- The whole as a part of itself. -/
def whole : Place σ σ := ⟨id, fun part _ => part⟩

/-- A part of a part. -/
def comp (outer : Place σ τ) (inner : Place τ υ) : Place σ υ where
  view state := inner.view (outer.view state)
  update part state := outer.update (inner.update part (outer.view state)) state

end Place

/-- An action on a part, run on the whole. -/
def Action.within (place : Place σ τ) (action : Action τ α) : Action σ α := .of fun state =>
  match action.run (place.view state) with
  | (outcome, part) => (outcome, place.update part state)

@[simp]
theorem Action.run_within (place : Place σ τ) (action : Action τ α) (state : σ) :
    (action.within place).run state =
      ((action.run (place.view state)).1, place.update (action.run (place.view state)).2 state) :=
  rfl

end ChunkTree
