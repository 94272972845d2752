import ChunkTree.Proofs.Traversal

/-!
# How actions end

What an action comes to from every state of a kind (`Action.Ends`): it leaves a state of that kind,
and answers as told or fails with a fault of some sort.  Sequences and traversals end as their parts
do, and avoid the faults that their parts avoid (`Action.Avoids`).
-/

namespace ChunkTree.Action

variable {σ τ α β : Type}

/-- Whenever the action starts in a state of the kind, it leaves one, and its answer is as told or its
fault one of the tolerated. -/
def Ends (kind : σ → Prop) (tolerated : Fault → Prop) (told : α → Prop) (action : Action σ α) :
    Prop :=
  ∀ state, kind state → kind (action.run state).2 ∧
    match (action.run state).1 with
    | .ok answer => told answer
    | .error fault => tolerated fault

variable {kind : σ → Prop} {tolerated : Fault → Prop} {told : α → Prop}

theorem Ends.lift {outcome : Except Fault α} (answers : ∀ answer, outcome = .ok answer → told answer)
    (fails : ∀ fault, outcome = .error fault → tolerated fault) :
    Ends kind tolerated told (Action.lift outcome) := by
  intro state start
  refine ⟨start, ?_⟩
  rw [run_lift]
  cases outcome with
  | error fault => exact fails fault rfl
  | ok answer => exact answers answer rfl

theorem Ends.pure {answer : α} (as : told answer) :
    Ends kind tolerated told (Pure.pure answer) :=
  fun _ start => ⟨start, as⟩

theorem Ends.throw {fault : Fault} (tolerable : tolerated fault) :
    Ends kind tolerated told (MonadExcept.throw fault) :=
  fun _ start => ⟨start, tolerable⟩

theorem Ends.bind {between : α → Prop} {wanted : β → Prop} {action : Action σ α}
    {next : α → Action σ β} (first : Ends kind tolerated between action)
    (second : ∀ answer, between answer → Ends kind tolerated wanted (next answer)) :
    Ends kind tolerated wanted (action >>= next) := by
  intro state start
  obtain ⟨middle, outcome⟩ := first state start
  rw [run_bind]
  rcases ran : action.run state with ⟨fault | answer, after⟩
  · rw [ran] at middle outcome
    exact ⟨middle, outcome⟩
  · rw [ran] at middle outcome
    exact second answer outcome after middle

theorem Ends.mono {wanted : α → Prop} {action : Action σ α} (ends : Ends kind tolerated told action)
    (more : ∀ answer, told answer → wanted answer) : Ends kind tolerated wanted action := by
  intro state start
  obtain ⟨left, outcome⟩ := ends state start
  refine ⟨left, ?_⟩
  rcases ran : (action.run state).1 with fault | answer
  · rw [ran] at outcome
    exact outcome
  · rw [ran] at outcome
    exact more answer outcome

/-- A traversal answers with what its steps are told to answer, one after the other. -/
theorem Ends.mapM_forall₂ {told : α → β → Prop} {step : α → Action σ β} {items : List α}
    (each : ∀ item ∈ items, Ends kind tolerated (told item) (step item)) :
    Ends kind tolerated (List.Forall₂ told items) (items.mapM step) := by
  induction items with
  | nil => exact Ends.pure .nil
  | cons item rest ih =>
      rw [List.mapM_cons]
      refine (each item List.mem_cons_self).bind fun first head => ?_
      refine (ih fun other member => each other (List.mem_cons_of_mem _ member)).bind ?_
      intro others tail
      exact Ends.pure (.cons head tail)

/-- A traversal whose steps each have a known answer answers with all of these. -/
theorem Ends.mapM {step : α → Action σ β} {answer : α → β} {items : List α}
    (each : ∀ item ∈ items, Ends kind tolerated (· = answer item) (step item)) :
    Ends kind tolerated (· = items.map answer) (items.mapM step) := by
  apply (Ends.mapM_forall₂ each).mono
  intro answers known
  rw [← List.forall₂_eq_eq_eq, List.forall₂_map_right_iff]
  exact known.flip

/-- The action fails with this fault from no state. -/
def Avoids (fault : Fault) (action : Action σ α) : Prop :=
  ∀ state, (action.run state).1 ≠ .error fault

theorem avoids_iff_ends {fault : Fault} {action : Action σ α} :
    action.Avoids fault ↔ Ends (fun _ => True) (· ≠ fault) (fun _ => True) action := by
  refine forall_congr' fun state => ?_
  simp only [forall_const, true_and]
  rcases (action.run state).1 with other | answer <;> simp

theorem Avoids.lift {fault : Fault} {outcome : Except Fault α} (apart : outcome ≠ .error fault) :
    (Action.lift outcome : Action σ α).Avoids fault :=
  fun _ => apart

theorem Avoids.pure {fault : Fault} (answer : α) : (Pure.pure answer : Action σ α).Avoids fault :=
  fun _ => nofun

theorem Avoids.throw {fault other : Fault} (apart : other ≠ fault) :
    (MonadExcept.throw other : Action σ α).Avoids fault :=
  fun _ same => apart (Except.error.inj same)

theorem Avoids.update {fault : Fault} (change : σ → σ) : (Action.update change).Avoids fault :=
  fun _ => nofun

theorem Avoids.within {fault : Fault} {action : Action τ α} (avoids : action.Avoids fault)
    (place : Place σ τ) : (action.within place).Avoids fault :=
  fun state => avoids (place.view state)

theorem Avoids.attempt {fault : Fault} (action : Action σ α) : action.attempt.Avoids fault :=
  fun _ => nofun

/-- What a sequence goes on with only has to avoid the fault after answers that there can be. -/
theorem Avoids.bind_of_ok {fault : Fault} {action : Action σ α} {next : α → Action σ β}
    (first : action.Avoids fault)
    (second : ∀ before answer after, action.run before = (.ok answer, after) →
      (next answer).Avoids fault) :
    (action >>= next).Avoids fault := by
  intro state
  rw [run_bind]
  rcases ran : action.run state with ⟨other | answer, after⟩
  · have apart := first state
    rw [ran] at apart
    intro same
    exact apart (congrArg Except.error (Except.error.inj same))
  · exact second state answer after ran after

theorem Avoids.bind {fault : Fault} {action : Action σ α} {next : α → Action σ β}
    (first : action.Avoids fault) (second : ∀ answer, (next answer).Avoids fault) :
    (action >>= next).Avoids fault :=
  avoids_iff_ends.mpr ((avoids_iff_ends.mp first).bind fun answer _ =>
    avoids_iff_ends.mp (second answer))

theorem Avoids.mapM {fault : Fault} {step : α → Action σ β} {items : List α}
    (each : ∀ item ∈ items, (step item).Avoids fault) : (items.mapM step).Avoids fault :=
  avoids_iff_ends.mpr ((Ends.mapM_forall₂ fun item member =>
    avoids_iff_ends.mp (each item member)).mono fun _ _ => trivial)

end ChunkTree.Action
