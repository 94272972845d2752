import ChunkTree.Process
import ChunkTree.Proofs.Durability
import ChunkTree.Proofs.Logs

/-!
# What happens beside the shell

Whatever happens beside the shell of a process, both tiers keep what they have, and files stay and are
added to at most (`Process.sure_happen`, `Process.sure_pass`).  That is so as long as the log and the
chunks are not in each other's way, and no part of a chunk is lost unnoticed (`Surroundings.Tame`).
-/

namespace ChunkTree

open FileSystem (KeepsDirectories OnWay Widens spot)

namespace Disk

variable {base : String} {files : FileSystem} {root : List String} {key : Key}

/-- The directory of a store is where its path leads. -/
theorem Leads.root_eq (leads : Leads base (some root) files) : root = spot files.here base :=
  FileSystem.namesOf_of_walk leads

theorem spot_pathOf (usable : Usable base) (here : List String) (key : Key) :
    spot here (pathOf base key) = spot here base ++ place key :=
  FileSystem.spot_of_behind (behind_pathOf usable.filled usable.free key) (undotted_place key) here

theorem spot_beside (usable : Usable base) (here : List String) (key : Key) :
    spot here (pathOf base key ++ ".tmp") = spot here base ++ beside key :=
  FileSystem.spot_of_behind (behind_beside usable.filled usable.free key) (undotted_beside key) here

end Disk

namespace Process

open Disk (Distinct Follows Loose Noticed OnDisk Truthful Usable)

/-- The files in a state. -/
abbrev State.files (state : State) : FileSystem := state.tiers.1.2

/-- The path of the log at a moment. -/
abbrev logAt (surroundings : Surroundings) (options : Options) (moment : Nat) : String :=
  surroundings.logFile options.logFile moment

theorem State.view_filesPlace (state : State) : State.filesPlace.view state = state.files := rfl

/-- Adding to the log is done to the files and the log of a process. -/
theorem run_record (surroundings : Surroundings) (options : Options) (text : Bytes) (state : State) :
    (record surroundings options text).run state =
      (((Log.add (logAt surroundings options state.moment) text).run (state.files, state.log)).1,
        State.logPlace.update ((Log.add (logAt surroundings options state.moment) text).run
          (state.files, state.log)).2 state) :=
  rfl

/-- The log is not at the file of one of these chunks, nor is that on the way to the log; neither is the
log the file beside it.  If there is room only for a part of a chunk, that shows. -/
structure Surroundings.Tame (surroundings : Surroundings) (options : Options)
    (made : Key → Bytes → Prop) (here : List String) : Prop where
  free : ∀ moment, '\x00' ∉ (logAt surroundings options moment).toList
  apart : ∀ moment key data, made key data →
    ¬ OnWay here (logAt surroundings options moment) (spot here (Disk.pathOf options.directory key))
  aside : ∀ moment key data, made key data →
    spot here (logAt surroundings options moment) ≠
      spot here (Disk.pathOf options.directory key ++ ".tmp")
  noticed : ∀ moment tiers trouble?, Event.write trouble? ∈ surroundings.pauses moment tiers ∨
    Event.write trouble? ∈ surroundings.interludes moment tiers ∨
    surroundings.troubles moment = trouble? →
      ∀ key data, made key data → Noticed trouble? data

variable {surroundings : Surroundings} {options : Options} {made : Key → Bytes → Prop}
  {here : List String} {root? : Option (List String)} {size : Nat} {state between later : State}

/-- Both tiers have what they have to have, and the log that is open is where a log is at some
moment. -/
structure Sure (surroundings : Surroundings) (options : Options) (root? : Option (List String))
    (made : Key → Bytes → Prop) (here : List String) (state : State) : Prop where
  tiers : Program.Sure options.directory root? made state.tiers
  stands : state.files.here = here
  log : ∀ number, state.log = some number → ∃ moment,
    state.files.entries[spot here (logAt surroundings options moment)]? = some (.file number)

/-- Nothing that was there is gone.  Files are added to at most, and only if a log may be there; but this
is not said of those through which chunks are written. -/
structure Moves (surroundings : Surroundings) (options : Options) (root? : Option (List String))
    (made : Key → Bytes → Prop) (here : List String) (state later : State) : Prop where
  onward : Program.Onward options.directory root? made state.tiers later.tiers
  keeps : state.files.KeepsDirectories later.files
  kept : ∀ (names : List String) (number : Nat), ¬ Loose root? made names →
    state.files.entries[names]? = some (.file number) →
      later.files.entries[names]? = some (.file number)
  grown : ∀ (names : List String) (number : Nat), ¬ Loose root? made names →
    state.files.entries[names]? = some (.file number) →
      ∃ more, later.files.content number = state.files.content number ++ more ∧
        ((∀ moment, names ≠ spot here (logAt surroundings options moment)) → more = #[])

theorem Moves.of_files (onward : Program.Onward options.directory root? made state.tiers later.tiers)
    (same : later.files = state.files) : Moves surroundings options root? made here state later where
  onward := onward
  keeps := by
    rw [same]
    exact ⟨rfl, fun _ => id⟩
  kept := by
    rw [same]
    exact fun _ _ _ => id
  grown := by
    rw [same]
    exact fun _ _ _ _ => ⟨#[], Array.append_empty.symm, fun _ => rfl⟩

theorem Moves.refl (state : State) : Moves surroundings options root? made here state state :=
  .of_files (.refl _) rfl

theorem Moves.trans (first : Moves surroundings options root? made here state between)
    (second : Moves surroundings options root? made here between later) :
    Moves surroundings options root? made here state later where
  onward := first.onward.trans second.onward
  keeps := ⟨second.keeps.here.trans first.keeps.here, fun names held =>
    second.keeps.directories names (first.keeps.directories names held)⟩
  kept names number fast held := second.kept names number fast (first.kept names number fast held)
  grown := by
    intro names number fast held
    obtain ⟨more, content, none⟩ := first.grown names number fast held
    obtain ⟨others, contents, nothing⟩ :=
      second.grown names number fast (first.kept names number fast held)
    refine ⟨more ++ others, by rw [contents, content, Array.append_assoc], fun apart => ?_⟩
    rw [none apart, nothing apart, Array.append_empty]

theorem Sure.root_eq (sure : Sure surroundings options root? made here state) {root : List String}
    (same : root? = some root) :
    root = spot here options.directory := by
  subst same
  rw [← sure.stands]
  exact Disk.Leads.root_eq sure.tiers.truthful.leads

section Steps

variable (usable : Usable options.directory) (distinct : Distinct size made)
  (tame : surroundings.Tame options made here)
  (sure : Sure surroundings options root? made here state)
include usable tame sure

/-- The log is not a file through which a chunk is written. -/
theorem Sure.fast (moment : Nat) :
    ¬ Loose root? made (spot here (logAt surroundings options moment)) := by
  rintro ⟨root, key, data, same, known, names⟩
  refine tame.aside moment key data known ?_
  rw [names, Disk.spot_beside usable, sure.root_eq same]

/-- No chunk is at the log, or on the way to it. -/
theorem Sure.apart {root : List String} {key : Key} {data : Bytes} (same : root? = some root)
    (known : made key data) (moment : Nat) :
    ¬ OnWay here (logAt surroundings options moment) (root ++ Disk.place key) := by
  rw [sure.root_eq same, ← Disk.spot_pathOf usable]
  exact tame.apart moment key data known

/-- Something is added to the log. -/
theorem sure_append {files : FileSystem} {text : Bytes} {number moment : Nat} {unlogged : Bool}
    (widens : Widens (OnWay here (logAt surroundings options moment)) (fun _ => False) state.files files)
    (there : ∃ moment, files.entries[spot here (logAt surroundings options moment)]? =
      some (.file number)) :
    Sure surroundings options root? made here
        ⟨((state.tiers.1.1, files.append number text), state.tiers.2), some number, unlogged,
          state.moment⟩ ∧
      Moves surroundings options root? made here state
        ⟨((state.tiers.1.1, files.append number text), state.tiers.2), some number, unlogged,
          state.moment⟩ := by
  obtain ⟨other, entry⟩ := there
  have appended : files.Widens (fun _ => False) (· = number) (files.append number text) :=
    FileSystem.widens_of_rewrites widens.sound (files.rewrites_setContent number _)
  have both : state.files.Widens (OnWay here (logAt surroundings options moment)) (· = number)
      (files.append number text) :=
    (widens.mono (fun _ => id) fun _ => False.elim).trans (appended.mono (fun _ => False.elim) fun _ => id)
  have follows : Follows options.directory root? made state.files (files.append number text) := by
    refine Disk.follows_of_widens sure.tiers.truthful both
      (fun root key data same known => sure.apart usable tame same known moment) ?_
    rintro root key data number same known held rfl
    refine sure.apart usable tame same known other ?_
    rw [widens.sound.unique _ _ number (widens.kept held) entry]
    exact FileSystem.onWay_spot _ _
  obtain ⟨tiers, onward⟩ := sure.tiers.of_follows follows
  refine ⟨⟨tiers, both.here.trans sure.stands, ?_⟩, onward, both.keepsDirectories,
    fun _ _ _ => both.kept, ?_⟩
  · rintro _ same
    cases same
    exact ⟨other, entry⟩
  · intro names held fast found
    have before : files.content held = state.files.content held :=
      widens.contents names held found not_false
    by_cases same : held = number
    · subst same
      refine ⟨text, by rw [FileSystem.content_append, before], fun elsewhere => ?_⟩
      exact absurd (widens.sound.unique _ _ held (widens.kept found) entry) (elsewhere other)
    · exact ⟨#[], by rw [Array.append_empty, both.contents names held found same], fun _ => rfl⟩

/-- The log cannot be opened. -/
theorem sure_unlogged {files : FileSystem} {moment : Nat}
    (widens : Widens (OnWay here (logAt surroundings options moment)) (fun _ => False) state.files files) :
    Sure surroundings options root? made here
        ⟨((state.tiers.1.1, files), state.tiers.2), none, true, state.moment⟩ ∧
      Moves surroundings options root? made here state
        ⟨((state.tiers.1.1, files), state.tiers.2), none, true, state.moment⟩ := by
  have follows : Follows options.directory root? made state.files files :=
    Disk.follows_of_widens sure.tiers.truthful widens
      (fun root key data same known => sure.apart usable tame same known moment)
      fun _ _ _ _ _ _ _ => id
  obtain ⟨tiers, onward⟩ := sure.tiers.of_follows follows
  refine ⟨⟨tiers, widens.here.trans sure.stands, fun _ => nofun⟩, onward, widens.keepsDirectories,
    fun _ _ _ => widens.kept, fun names held fast found => ?_⟩
  exact ⟨#[], by rw [Array.append_empty, widens.contents names held found not_false], fun _ => rfl⟩

/-- A text is added to the log, or the log cannot be opened. -/
theorem sure_record (text : Bytes) :
    Sure surroundings options root? made here (happen surroundings options state (.record text)) ∧
      Moves surroundings options root? made here state
        (happen surroundings options state (.record text)) := by
  obtain ⟨between, widens, added⟩ := Log.run_add sure.tiers.truthful.sound
    (tame.free state.moment) state.log text
  rw [sure.stands] at widens added
  rw [happen, run_record]
  rcases added with ⟨fault, failed, -⟩ | ⟨number, added, opened⟩
  · rw [failed]
    exact sure_unlogged usable tame sure widens
  · rw [added]
    refine sure_append usable tame sure widens ?_
    rcases opened with ⟨rfl, open_⟩ | entry
    · exact sure.log number open_
    · exact ⟨state.moment, entry⟩

include distinct

/-- The worker takes the oldest write. -/
theorem sure_write {trouble? : Option Disk.Trouble}
    (noticed : ∀ key data, made key data → Noticed trouble? data) :
    Sure surroundings options root? made here (happen surroundings options state (.write trouble?)) ∧
      Moves surroundings options root? made here state
        (happen surroundings options state (.write trouble?)) := by
  obtain ⟨tiers, onward, stays⟩ := Program.sure_work usable distinct sure.tiers noticed
  refine ⟨⟨tiers, stays.keeps.here.trans sure.stands, ?_⟩, ⟨onward, stays.keeps, ?_, ?_⟩⟩
  · intro number opened
    obtain ⟨moment, entry⟩ := sure.log number opened
    exact ⟨moment, (stays.kept _ number (sure.fast usable tame moment) entry).1⟩
  · exact fun names number fast held => (stays.kept names number fast held).1
  · intro names number fast held
    exact ⟨#[], by rw [Array.append_empty]; exact (stays.kept names number fast held).2, fun _ => rfl⟩

/-- **What may happen beside the shell leaves what both tiers have.** -/
theorem sure_happen {event : Event}
    (noticed : ∀ trouble?, event = .write trouble? → ∀ key data, made key data → Noticed trouble? data) :
    Sure surroundings options root? made here (happen surroundings options state event) ∧
      Moves surroundings options root? made here state (happen surroundings options state event) := by
  cases event with
  | write trouble? => exact sure_write usable distinct tame sure (noticed trouble? rfl)
  | record text => exact sure_record usable tame sure text
  | rotate => exact ⟨⟨sure.tiers, sure.stands, fun _ => nofun⟩, .of_files (.refl _) rfl⟩

theorem sure_foldl {events : List Event}
    (noticed : ∀ trouble?, .write trouble? ∈ events → ∀ key data, made key data → Noticed trouble? data) :
    Sure surroundings options root? made here (events.foldl (happen surroundings options) state) ∧
      Moves surroundings options root? made here state
        (events.foldl (happen surroundings options) state) := by
  induction events generalizing state with
  | nil => exact ⟨sure, .refl state⟩
  | cons event rest ih =>
      obtain ⟨between, first⟩ := sure_happen usable distinct tame sure
        fun trouble? same => noticed trouble? (same ▸ List.mem_cons_self : _ ∈ event :: rest)
      obtain ⟨last, second⟩ := ih between fun trouble? member =>
        noticed trouble? (List.mem_cons_of_mem _ member)
      exact ⟨last, first.trans second⟩

/-- A moment passes while the shell waits, or before a call of the store. -/
theorem sure_pass {events : Nat → Program.State → List Event}
    (among : events = surroundings.pauses ∨ events = surroundings.interludes) :
    Sure surroundings options root? made here (pass surroundings options events state) ∧
      Moves surroundings options root? made here state (pass surroundings options events state) := by
  have later : Sure surroundings options root? made here { state with moment := state.moment + 1 } :=
    ⟨sure.tiers, sure.stands, sure.log⟩
  have noticed (trouble? : Option Disk.Trouble)
      (member : Event.write trouble? ∈ events state.moment state.tiers) :
      ∀ key data, made key data → Noticed trouble? data := by
    apply tame.noticed state.moment state.tiers trouble?
    rcases among with rfl | rfl
    · exact .inl member
    · exact .inr (.inl member)
  obtain ⟨last, moves⟩ := sure_foldl usable distinct tame later noticed
  have start : Moves surroundings options root? made here state
      { state with moment := state.moment + 1 } := .of_files (.refl _) rfl
  exact ⟨last, start.trans moves⟩

theorem sure_await :
    Sure surroundings options root? made here (await surroundings options state) ∧
      Moves surroundings options root? made here state (await surroundings options state) := by
  obtain ⟨between, first⟩ := sure_pass usable distinct tame sure (.inl rfl)
  have noticed : ∀ key data, made key data → Noticed (surroundings.troubles state.moment) data :=
    tame.noticed state.moment state.tiers _ (.inr (.inr rfl))
  obtain ⟨last, second⟩ := sure_write usable distinct tame between noticed
  exact ⟨last, first.trans second⟩

/-- Waiting for the worker keeps what both tiers have. -/
theorem sure_settle :
    Sure surroundings options root? made here (settle surroundings options state) ∧
      Moves surroundings options root? made here state (settle surroundings options state) := by
  have each (times : Nat) :
      Sure surroundings options root? made here
          (Nat.repeat (await surroundings options) times state) ∧
        Moves surroundings options root? made here state
          (Nat.repeat (await surroundings options) times state) := by
    induction times with
    | zero => exact ⟨sure, .refl state⟩
    | succ times ih =>
        obtain ⟨last, second⟩ := sure_await usable distinct tame ih.1
        exact ⟨last, ih.2.trans second⟩
  obtain ⟨waited, first⟩ := each state.tiers.2.pending.length
  obtain ⟨last, second⟩ := sure_pass usable distinct tame waited (.inl rfl)
  exact ⟨last, first.trans second⟩

/-- Both tiers answer for a key after what happens before that. -/
theorem sure_get (key : Key) :
    ∃ next, ((store surroundings options).get key).run state =
        (Program.tierAnswers options.directory next.tiers key, next) ∧
      Sure surroundings options root? made here next ∧
      Moves surroundings options root? made here state next := by
  obtain ⟨last, moves⟩ := sure_pass usable distinct tame sure (.inr rfl)
  refine ⟨_, ?_, last, moves⟩
  rw [store, Action.run_bind, Action.run_update]
  simp only [Store.within]
  rw [Action.run_within, State.tiersPlace]
  simp only [Program.run_get]

/-- A chunk that is put is in memory. -/
theorem sure_put {chunk : Chunk} {data : Bytes} (holds : chunk.data = some data)
    (known : made chunk.key data) :
    ∃ next, ((store surroundings options).put chunk).run state = (.ok (), next) ∧
      Sure surroundings options root? made here next ∧
      Moves surroundings options root? made here state next ∧
      ∃ bound, next.tiers.1.1[chunk.key]? = some bound ∧ bound.data = some data := by
  obtain ⟨between, first⟩ := sure_pass usable distinct tame sure (.inr rfl)
  obtain ⟨tiers, ran, last, onward, files, bound⟩ :=
    Program.sure_put distinct between.tiers holds known
  refine ⟨{ pass surroundings options surroundings.interludes state with tiers := tiers }, ?_, ?_,
    first.trans (.of_files onward files), bound⟩
  · rw [store, Action.run_bind, Action.run_update]
    simp only [Store.within]
    rw [Action.run_within, State.tiersPlace]
    simp only [ran]
  · refine ⟨last, ?_, fun number opened => ?_⟩
    · rw [State.files, files]
      exact between.stands
    · obtain ⟨moment, entry⟩ := between.log number opened
      refine ⟨moment, ?_⟩
      rw [State.files, files]
      exact entry

end Steps

section Settling

variable (surroundings options)

/-- Nothing that happens beside the shell makes more writes wait. -/
theorem pending_happen (state : State) (event : Event) :
    (happen surroundings options state event).tiers.2.pending <:+ state.tiers.2.pending := by
  cases event with
  | write trouble? =>
      rw [happen, Tiered.pending_work]
      exact List.tail_suffix _
  | record text =>
      rw [happen, run_record]
      rcases (Log.add (logAt surroundings options state.moment) text).run (state.files, state.log) with
        ⟨fault | _, after⟩
      · exact List.suffix_refl _
      · exact List.suffix_refl _
  | rotate => exact List.suffix_refl _

theorem pending_pass (events : Nat → Program.State → List Event) (state : State) :
    (pass surroundings options events state).tiers.2.pending <:+ state.tiers.2.pending := by
  rw [pass]
  generalize events state.moment state.tiers = happening
  have each (start : State) :
      (happening.foldl (happen surroundings options) start).tiers.2.pending <:+
        start.tiers.2.pending := by
    induction happening generalizing start with
    | nil => exact List.suffix_refl _
    | cons event rest ih => exact (ih _).trans (pending_happen surroundings options start event)
  exact each _

theorem length_pending_await (state : State) :
    (await surroundings options state).tiers.2.pending.length ≤ state.tiers.2.pending.length - 1 := by
  have fewer := (pending_pass surroundings options surroundings.pauses state).length_le
  rw [await, happen, Tiered.pending_work, List.length_tail]
  omega

/-- In the end nothing waits. -/
theorem pending_settle (state : State) :
    (settle surroundings options state).tiers.2.pending = [] := by
  have each (times : Nat) : (Nat.repeat (await surroundings options) times state).tiers.2.pending.length ≤
      state.tiers.2.pending.length - times := by
    induction times with
    | zero => exact Nat.le_refl _
    | succ times ih =>
        have one := length_pending_await surroundings options
          (Nat.repeat (await surroundings options) times state)
        rw [Nat.repeat]
        omega
  have none := each state.tiers.2.pending.length
  rw [Nat.sub_self, Nat.le_zero, List.length_eq_zero_iff] at none
  have last := pending_pass surroundings options surroundings.pauses
    (Nat.repeat (await surroundings options) state.tiers.2.pending.length state)
  rw [none, List.suffix_nil] at last
  exact last

end Settling

end Process

end ChunkTree
