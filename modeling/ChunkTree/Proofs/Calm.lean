import ChunkTree.Process
import ChunkTree.Proofs.Mirrors

/-!
# Calm processes

The program is a process with calm surroundings: nothing is logged, nothing goes wrong, and all writes that
wait are taken whenever the shell waits for a line (`Process.serve_calm`).
-/

namespace ChunkTree.Process

open ChunkTree.Action (Alongside Predicts)

/-- Nothing is logged and nothing goes wrong.  While the shell waits, as many writes are taken as wait. -/
def calm : Surroundings where
  logFile name _ := name
  greeting := []
  pauses _ tiers := List.replicate tiers.2.pending.length (.write none)
  interludes _ _ := []
  troubles _ := none
  room _ := none

/-- The process has these tiers, and everything was logged. -/
structure Has (tiers : Program.State) (state : State) : Prop where
  tiers : state.tiers = tiers
  logged : state.unlogged = false

variable {options : Options} {tiers : Program.State} {state : State}

theorem Has.write (has : Has tiers state) :
    Has (Tiered.work (Program.durableTier options.directory) tiers)
      (happen calm options state (.write none)) := by
  obtain ⟨rfl, logged⟩ := has
  exact ⟨rfl, logged⟩

/-- While a calm process waits, all that waits is written. -/
theorem Has.pass (has : Has tiers state) :
    Has (Tiered.flush (Program.durableTier options.directory) tiers)
      (pass calm options calm.pauses state) := by
  have each (count : Nat) {tiers : Program.State} {state : State} (has : Has tiers state) :
      Has (Nat.repeat (Tiered.work (Program.durableTier options.directory)) count tiers)
        ((List.replicate count (.write none)).foldl (happen calm options) state) := by
    induction count with
    | zero => exact has
    | succ count ih =>
        rw [List.replicate_succ', List.foldl_append]
        exact ih.write
  obtain ⟨rfl, logged⟩ := has
  exact each _ ⟨rfl, logged⟩

/-- When the process waits for a write, that has been done already. -/
theorem Has.await (has : Has tiers state) :
    Has (Tiered.flush (Program.durableTier options.directory) tiers) (await calm options state) := by
  have idle := Tiered.pending_flush (Program.durableTier options.directory) tiers
  have worked : Tiered.work (Program.durableTier options.directory)
      (Tiered.flush (Program.durableTier options.directory) tiers) =
        Tiered.flush (Program.durableTier options.directory) tiers := by
    rw [Tiered.work, Backlog.pop?_eq_none.mpr idle]
  rw [← worked]
  exact has.pass.write

theorem Has.settle (has : Has tiers state) :
    Has (Tiered.flush (Program.durableTier options.directory) tiers) (settle calm options state) := by
  have each (times : Nat) : ∃ between, Has between (Nat.repeat (Process.await calm options) times state) ∧
      Tiered.flush (Program.durableTier options.directory) between =
        Tiered.flush (Program.durableTier options.directory) tiers := by
    induction times with
    | zero => exact ⟨tiers, has, rfl⟩
    | succ times ih =>
        obtain ⟨between, there, same⟩ := ih
        exact ⟨_, there.await, (Tiered.flush_flush _ _).trans same⟩
  obtain ⟨between, there, same⟩ := each state.tiers.2.pending.length
  rw [← same]
  exact there.pass

/-- In calm surroundings the shell of a process mirrors that of the program. -/
theorem mirrors_calm (options : Options) (chunker : Chunker) :
    Shell.Mirrors Has (Program.shell chunker options.directory) (shell calm options chunker) := by
  have called {α : Type} (action : Action Program.State α) :
      Predicts Has action (do
        .update (pass calm options calm.interludes)
        action.within State.tiersPlace) := by
    rintro _ state ⟨rfl, logged⟩
    rw [Action.run_bind, Action.run_update]
    simp only
    rw [Action.run_within]
    exact ⟨rfl, rfl, logged⟩
  refine ⟨rfl, rfl, fun _ => called _, fun _ => called _, fun _ => called _, ?_, ?_, fun _ _ => Has.pass,
    fun _ _ _ => rfl⟩
  · rintro _ state ⟨rfl, -⟩
    rfl
  · rintro _ state ⟨rfl, logged⟩ files
    exact ⟨rfl, logged⟩

/-- The log of a calm process has a name, and nothing is written to it. -/
theorem run_openLog_calm (named : options.logFile ≠ "") (files : FileSystem) :
    (openLog calm options).run (.start files) = (.ok (), .start files) := by
  rw [openLog, if_neg named]
  rfl

/-- With a log that has a name, the program makes the same ready. -/
theorem run_openStore_start (named : options.logFile ≠ "") (files : FileSystem) :
    (openStore options .standard).run (.start files) =
      (((Program.prepare options).run files).1, .start ((Program.prepare options).run files).2) := by
  rw [openStore, Program.prepare, if_neg named, Action.run_bind, Action.run_bind, Action.run_lift,
    Action.run_lift]
  rcases Chunker.withDigest .standard options.branches options.digest with fault | chunker
  · rfl
  have view : State.filesPlace.view (.start files) = files := rfl
  simp only
  rw [Action.run_bind, Action.run_bind, Action.run_within, view]
  rcases (Disk.openAt options.directory).run files with ⟨fault | _, opened⟩
  · rfl
  · rfl

/-- **The program is a calm process.** -/
theorem serve_calm (options : Options) (input : String) (files : FileSystem) :
    serve calm options .standard input files = Program.serve options input files := by
  by_cases unnamed : options.logFile = ""
  · rw [serve, openLog, Program.serve, Program.prepare]
    simp only [unnamed]
    rfl
  rw [serve, run_openLog_calm unnamed, Program.serve]
  simp only
  rw [run_openStore_start unnamed]
  rcases (Program.prepare options).run files with ⟨fault | chunker, opened⟩
  · rw [decide_eq_false unnamed]
    rfl
  simp only
  have idle : Tiered.flush (Program.durableTier options.directory) ((∅, opened), Backlog.empty) =
      ((∅, opened), Backlog.empty) := rfl
  have started : Has ((∅, opened), Backlog.empty)
      (pass calm options calm.pauses (.start opened)) := by
    rw [← idle]
    exact Has.pass ⟨rfl, rfl⟩
  have alike := ((mirrors_calm options chunker).predicts_run input.toList
    (((∅, opened), Backlog.empty), #[]) (pass calm options calm.pauses (.start opened), #[])
    ⟨started, rfl⟩).2
  rcases ran : ((shell calm options chunker).run input.toList).run
    (pass calm options calm.pauses (.start opened), #[]) with ⟨outcome, last, output⟩
  rcases expected : ((Program.shell chunker options.directory).run input.toList).run
    (((∅, opened), Backlog.empty), #[]) with ⟨answer, left, printed⟩
  rw [ran, expected] at alike
  obtain ⟨tiers, logged⟩ : Has (Tiered.flush (Program.durableTier options.directory) left)
    (settle calm options last) := alike.1.settle
  have output_eq : printed = output := alike.2
  have view : State.filesPlace.view (settle calm options last) =
      (Tiered.flush (Program.durableTier options.directory) left).1.2 := by
    rw [← tiers]
    rfl
  simp only [tiers, logged, view, output_eq, Bool.not_false, and_true]

end ChunkTree.Process
