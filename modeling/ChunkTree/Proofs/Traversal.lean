import ChunkTree.Action
import Mathlib.Data.List.Forall2

/-!
# Actions over lists

What is true of an action on each item of a list is true of the actions one after the other.  This
goes for any relation that sequences keep (`Action.Compatible`), such as that states of some kind
stay of that kind (`Action.Keeps`), for actions that run alike until the state is bad
(`Action.AlikeUntil`), and for what a run that succeeds has done (`Action.forall₂_of_run_mapM`).
-/

namespace ChunkTree

theorem mapM_congr {m : Type → Type} [Monad m] [LawfulMonad m] {α β : Type} {items : List α}
    {step other : α → m β} (each : ∀ item ∈ items, step item = other item) :
    items.mapM step = items.mapM other := by
  induction items with
  | nil => rfl
  | cons item rest ih =>
      rw [List.mapM_cons, List.mapM_cons, each item List.mem_cons_self,
        ih fun later member => each later (List.mem_cons_of_mem _ member)]

theorem forM_congr {m : Type → Type} [Monad m] [LawfulMonad m] {α : Type} {items : List α}
    {step other : α → m PUnit} (each : ∀ item ∈ items, step item = other item) :
    forM items step = forM items other := by
  induction items with
  | nil => rfl
  | cons item rest ih =>
      rw [List.forM_cons, List.forM_cons, each item List.mem_cons_self,
        ih fun later member => each later (List.mem_cons_of_mem _ member)]

/-- Visiting the parts of every item as it comes is visiting all parts in order. -/
theorem mapM_forM_eq {m : Type → Type} [Monad m] [LawfulMonad m] {α β γ : Type} (items : List α)
    (parts : α → List β) (visit : β → m PUnit) (result : α → γ) :
    (items.mapM fun item => do forM (parts item) visit; return result item) =
      (do forM (items.flatMap parts) visit; return items.map result) := by
  induction items with
  | nil => simp
  | cons item rest ih =>
      rw [List.mapM_cons, ih, List.flatMap_cons, List.forM_append]
      simp only [bind_assoc, pure_bind, List.map_cons]

namespace Action

variable {σ τ α β : Type}

/-- A sequence succeeds exactly if both of its parts do. -/
theorem run_bind_eq_ok_iff {action : Action σ α} {next : α → Action σ β} {before after : σ}
    {answer : β} :
    (action >>= next).run before = (.ok answer, after) ↔
      ∃ first between, action.run before = (.ok first, between) ∧
        (next first).run between = (.ok answer, after) := by
  rw [run_bind]
  rcases action.run before with ⟨fault | first, between⟩
  · simp
  · simp

theorem run_tryCatch (action : Action σ α) (handler : Fault → Action σ α) (state : σ) :
    (tryCatch action handler).run state = match action.run state with
      | (.ok answer, state) => (.ok answer, state)
      | (.error fault, state) => (handler fault).run state :=
  rfl

theorem lift_bind (outcome : Except Fault α) (next : α → Except Fault β) :
    (Action.lift (outcome >>= next) : Action σ β) =
      Action.lift outcome >>= fun answer => Action.lift (next answer) := by
  cases outcome <;> rfl

/-- A relation between actions on two kinds of state that holds of what the state has no part in and
goes from actions to their sequences.  One program over related stores is then two related actions.
-/
structure Compatible (relates : ∀ α : Type, Action σ α → Action τ α → Prop) : Prop where
  lift : ∀ {α : Type} (outcome : Except Fault α), relates α (.lift outcome) (.lift outcome)
  bind : ∀ {α β : Type} {first : Action σ α} {second : Action τ α} {next : α → Action σ β}
    {other : α → Action τ β}, relates α first second →
    (∀ answer, relates β (next answer) (other answer)) →
    relates β (first >>= next) (second >>= other)

/-- Programs over one store are the same action, which has any property that goes from actions to their
sequences. -/
theorem Compatible.of_closed {holds : ∀ {α : Type}, Action σ α → Prop}
    (lift : ∀ {α : Type} (outcome : Except Fault α), holds (.lift outcome))
    (bind : ∀ {α β : Type} {action : Action σ α} {next : α → Action σ β}, holds action →
      (∀ answer, holds (next answer)) → holds (action >>= next)) :
    Compatible fun _ (action other : Action σ _) => action = other ∧ holds action where
  lift outcome := ⟨rfl, lift outcome⟩
  bind := by
    rintro α β first second next other ⟨rfl, heads⟩ tails
    have same : next = other := funext fun answer => (tails answer).1
    exact ⟨by rw [same], bind heads fun answer => (tails answer).2⟩

section Compatible

variable {relates : ∀ α : Type, Action σ α → Action τ α → Prop}

theorem Compatible.pure (compatible : Compatible relates) (answer : α) :
    relates α (Pure.pure answer) (Pure.pure answer) :=
  compatible.lift (.ok answer)

theorem Compatible.throw (compatible : Compatible relates) (fault : Fault) :
    relates α (MonadExcept.throw fault) (MonadExcept.throw fault) :=
  compatible.lift (.error fault)

theorem Compatible.mapM (compatible : Compatible relates) {step : α → Action σ β}
    {other : α → Action τ β} {items : List α}
    (each : ∀ item ∈ items, relates β (step item) (other item)) :
    relates (List β) (items.mapM step) (items.mapM other) := by
  induction items with
  | nil => exact compatible.pure []
  | cons item rest ih =>
      rw [List.mapM_cons, List.mapM_cons]
      refine compatible.bind (each item List.mem_cons_self) fun answer => ?_
      refine compatible.bind (ih fun later member => ?_) fun answers => compatible.pure _
      exact each later (List.mem_cons_of_mem _ member)

end Compatible

/-- States of this kind stay of this kind, whatever the outcome. -/
def Keeps (kind : σ → Prop) (action : Action σ α) : Prop :=
  ∀ state, kind state → kind (action.run state).2

theorem Keeps.run {kind : σ → Prop} {action : Action σ α} (keeps : Keeps kind action)
    {before after : σ} {outcome : Except Fault α} (start : kind before)
    (ran : action.run before = (outcome, after)) : kind after := by
  have kept := keeps before start
  rwa [ran] at kept

theorem Keeps.pure (kind : σ → Prop) (answer : α) : Keeps kind (Pure.pure answer) :=
  fun _ start => start

theorem Keeps.lift (kind : σ → Prop) (outcome : Except Fault α) :
    Keeps kind (Action.lift outcome) :=
  fun _ start => start

theorem Keeps.bind {kind : σ → Prop} {action : Action σ α} {next : α → Action σ β}
    (first : Keeps kind action) (second : ∀ answer, Keeps kind (next answer)) :
    Keeps kind (action >>= next) := by
  intro state start
  have between := first state start
  rw [run_bind]
  rcases ran : action.run state with ⟨fault | answer, middle⟩ <;> rw [ran] at between
  · exact between
  · exact second answer middle between

/-- Over one store, programs are the same action, and keep what it keeps. -/
theorem Keeps.compatible (kind : σ → Prop) :
    Compatible fun _ action other => action = other ∧ Keeps kind action :=
  .of_closed (Keeps.lift kind) Keeps.bind

theorem Keeps.mapM {kind : σ → Prop} {step : α → Action σ β} {items : List α}
    (each : ∀ item ∈ items, Keeps kind (step item)) : Keeps kind (items.mapM step) := by
  induction items with
  | nil => exact Keeps.pure kind []
  | cons item rest ih =>
      rw [List.mapM_cons]
      refine Keeps.bind (each item List.mem_cons_self) fun answer => Keeps.bind ?_ fun answers =>
        Keeps.pure kind _
      exact ih fun other member => each other (List.mem_cons_of_mem _ member)

/-- The actions run alike from every state, unless the first ends in a bad one. -/
def AlikeUntil (bad : σ → Prop) (first second : Action σ α) : Prop :=
  ∀ state, bad (first.run state).2 ∨ first.run state = second.run state

theorem AlikeUntil.refl (bad : σ → Prop) (action : Action σ α) : AlikeUntil bad action action :=
  fun _ => .inr rfl

theorem AlikeUntil.trans {bad : σ → Prop} {first second third : Action σ α}
    (left : AlikeUntil bad first second) (right : AlikeUntil bad second third) :
    AlikeUntil bad first third := by
  intro state
  rcases left state with spoiled | same
  · exact .inl spoiled
  · rw [same]
    exact right state

/-- Sequences run alike if their parts do: what has become bad has to stay so. -/
theorem AlikeUntil.bind {bad : σ → Prop} {first second : Action σ α} {next other : α → Action σ β}
    (heads : AlikeUntil bad first second)
    (tails : ∀ answer, AlikeUntil bad (next answer) (other answer))
    (stays : ∀ answer, Keeps bad (next answer)) :
    AlikeUntil bad (first >>= next) (second >>= other) := by
  intro state
  rw [run_bind, run_bind]
  rcases heads state with spoiled | same
  · left
    rcases ran : first.run state with ⟨fault | answer, between⟩ <;> rw [ran] at spoiled
    · exact spoiled
    · exact stays answer between spoiled
  · rw [← same]
    rcases first.run state with ⟨fault | answer, between⟩
    · exact .inr rfl
    · exact tails answer between

/-- Programs over one store run alike if their parts do. -/
theorem AlikeUntil.compatible (bad : σ → Prop) :
    Compatible fun α (first second : Action σ α) => AlikeUntil bad first second ∧ Keeps bad first where
  lift outcome := ⟨AlikeUntil.refl bad _, Keeps.lift bad outcome⟩
  bind heads tails := ⟨heads.1.bind (fun answer => (tails answer).1) fun answer => (tails answer).2,
    heads.2.bind fun answer => (tails answer).2⟩

/-- What goes on with an answer that is known goes on from it. -/
theorem AlikeUntil.bind_known {bad : σ → Prop} {first : Action σ α} {other : Action σ Unit}
    {value : α} {next : α → Action σ β} {rest : Action σ β}
    (head : AlikeUntil bad first (do other; return value))
    (tail : AlikeUntil bad (next value) rest) (stays : ∀ answer, Keeps bad (next answer)) :
    AlikeUntil bad (first >>= next) (do other; rest) := by
  have known := head.bind (fun answer => AlikeUntil.refl bad (next answer)) stays
  rw [bind_assoc] at known
  simp only [pure_bind] at known
  exact known.trans ((AlikeUntil.refl bad other).bind (fun _ => tail) fun _ => stays value)

/-- A run that succeeds has the answer that is known, unless it ends in a bad state. -/
theorem AlikeUntil.eq_or_bad {bad : σ → Prop} {first : Action σ α} {other : Action σ Unit}
    {value answer : α} {before after : σ} (alike : AlikeUntil bad first (do other; return value))
    (ran : first.run before = (.ok answer, after)) : answer = value ∨ bad after := by
  rcases alike before with spoiled | same
  · rw [ran] at spoiled
    exact .inr spoiled
  · rw [ran, eq_comm, run_bind_eq_ok_iff] at same
    obtain ⟨_, _, -, known⟩ := same
    cases known
    exact .inl rfl

/-- A run that keeps the state good runs alike from it. -/
theorem AlikeUntil.run_eq {good : σ → Prop} {first second : Action σ α} {state : σ}
    (alike : AlikeUntil (fun state => ¬ good state) first second) (keeps : Keeps good first)
    (start : good state) : first.run state = second.run state :=
  (alike state).resolve_left fun spoiled => spoiled (keeps state start)

theorem AlikeUntil.mapM {bad : σ → Prop} {step other : α → Action σ β} {items : List α}
    (each : ∀ item ∈ items, AlikeUntil bad (step item) (other item))
    (stays : ∀ item ∈ items, Keeps bad (step item)) :
    AlikeUntil bad (items.mapM step) (items.mapM other) := by
  induction items with
  | nil => exact AlikeUntil.refl bad _
  | cons item rest ih =>
      have restStays : ∀ later ∈ rest, Keeps bad (step later) :=
        fun later member => stays later (List.mem_cons_of_mem _ member)
      rw [List.mapM_cons, List.mapM_cons]
      refine AlikeUntil.bind (each item List.mem_cons_self) (fun answer => ?_) fun answer =>
        Keeps.bind (Keeps.mapM restStays) fun answers => Keeps.pure bad _
      refine AlikeUntil.bind ?_ (fun answers => AlikeUntil.refl bad _) fun answers =>
        Keeps.pure bad _
      exact ih (fun later member => each later (List.mem_cons_of_mem _ member)) restStays

/-- Actions that each visit some parts, one after the other, visit all of the parts. -/
theorem AlikeUntil.mapM_forM {γ : Type} {bad : σ → Prop} {step : α → Action σ β} {items : List α}
    {parts : α → List γ} {visit : γ → Action σ Unit} {answer : α → β}
    (each : ∀ item ∈ items, AlikeUntil bad (step item)
      (do forM (parts item) visit; return answer item))
    (stays : ∀ item ∈ items, Keeps bad (step item)) :
    AlikeUntil bad (items.mapM step)
      (do forM (items.flatMap parts) visit; return items.map answer) := by
  rw [← mapM_forM_eq]
  exact AlikeUntil.mapM each stays

/-- What runs over the items that each add to a log say together: every answer is as it should be,
and the log grew by what goes with the answers. -/
theorem forall₂_of_run_mapM {step : α → Action (σ × List τ) β} {post : α → β → Prop}
    {trace : β → List τ} {items : List α} {answers : List β} {before after : σ × List τ}
    (each : ∀ item ∈ items, ∀ {before after answer},
      (step item).run before = (.ok answer, after) →
        post item answer ∧ after.2 = before.2 ++ trace answer)
    (ran : (items.mapM step).run before = (.ok answers, after)) :
    List.Forall₂ post items answers ∧ after.2 = before.2 ++ answers.flatMap trace := by
  induction items generalizing before answers with
  | nil =>
      rw [List.mapM_nil, run_pure] at ran
      cases ran
      exact ⟨.nil, by simp⟩
  | cons item rest ih =>
      rw [List.mapM_cons, run_bind_eq_ok_iff] at ran
      obtain ⟨answer, between, first, ran⟩ := ran
      obtain ⟨others, last, ran, same⟩ := run_bind_eq_ok_iff.mp ran
      cases same
      obtain ⟨here, log⟩ := each item List.mem_cons_self first
      obtain ⟨there, logs⟩ :=
        ih (fun later member => each later (List.mem_cons_of_mem _ member)) ran
      exact ⟨.cons here there, by rw [logs, log, List.flatMap_cons, List.append_assoc]⟩

end Action

end ChunkTree
