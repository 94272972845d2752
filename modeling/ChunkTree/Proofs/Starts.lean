import ChunkTree.Proofs.Moments
import ChunkTree.Proofs.StraightBases

/-!
# How processes start

Before a process serves, it opens its log and its store.  Opening the log adds but what is on the way to
its file, and writes but that (`Process.logged_openLog`).  So a store that opens has all chunks that it had
(`Process.follows_of_logged`), and if nothing false is at their paths, the process starts with what it has
to have (`Process.sure_prepare`).  Opening both puts nothing at the paths of chunks if the path of the
store does not lead back (`Process.unmoved_of_straight`).
-/

namespace ChunkTree.Process

open Disk (Distinct Truthful Usable)
open FileSystem (OnWay Widens spot)

variable {surroundings : Surroundings} {options : Options} {made : Key → Bytes → Prop}
  {root? : Option (List String)} {size : Nat} {state : State} {files opened : FileSystem}

/-- The log may have been opened and written, and nothing else was done. -/
structure Logged (surroundings : Surroundings) (options : Options) (files : FileSystem) (state : State) :
    Prop where
  widens : files.Widens (OnWay files.here (logAt surroundings options 0))
    (fun number => state.files.entries[spot files.here (logAt surroundings options 0)]? =
      some (.file number)) state.files
  log : ∀ number, state.log = some number →
    state.files.entries[spot files.here (logAt surroundings options 0)]? = some (.file number)
  tiers : state.tiers = ((∅, state.files), Backlog.empty)
  moment : state.moment = 0

theorem logged_record (free : '\x00' ∉ (logAt surroundings options 0).toList)
    (logged : Logged surroundings options files state) (text : Bytes) :
    Logged surroundings options files ((record surroundings options text).run state).2 := by
  obtain ⟨between, widens, added⟩ := Log.run_add logged.widens.sound free state.log text
  have here : state.files.here = files.here := logged.widens.here
  rw [here] at widens added
  have both : files.Widens (OnWay files.here (logAt surroundings options 0))
      (fun number => between.entries[spot files.here (logAt surroundings options 0)]? =
        some (.file number)) between :=
    (logged.widens.mono (fun _ => id) fun _ => widens.kept).trans
      (widens.mono (fun _ => id) fun _ => False.elim)
  have tiers (later : FileSystem) : ((state.tiers.1.1, later), state.tiers.2) =
      ((∅, later), Backlog.empty) := by rw [logged.tiers]
  rw [run_record, logged.moment]
  rcases added with ⟨fault, failed, -⟩ | ⟨number, added, opened⟩
  · rw [failed]
    exact ⟨both, (fun _ never => by cases never), tiers between, logged.moment⟩
  · have entry : between.entries[spot files.here (logAt surroundings options 0)]? =
        some (.file number) := by
      rcases opened with ⟨rfl, same⟩ | entry
      · exact logged.log number same
      · exact entry
    have rewrites : between.Rewrites number (between.append number text) :=
      between.rewrites_setContent number _
    have appended : between.Widens (fun _ => False) (· = number) (between.append number text) :=
      FileSystem.widens_of_rewrites both.sound rewrites
    rw [added]
    refine ⟨both.trans (appended.mono (fun _ => False.elim) ?_), ?_, tiers _, logged.moment⟩
    · rintro _ rfl
      exact entry
    · rintro _ same
      cases same
      exact entry

/-- Opening the log adds but what is on the way to its file, and writes but that. -/
theorem logged_openLog (sound : files.Sound) (free : '\x00' ∉ (logAt surroundings options 0).toList) :
    Logged surroundings options files ((openLog surroundings options).run (.start files)).2 := by
  have start : Logged surroundings options files (.start files) :=
    ⟨.refl sound, (fun _ never => by cases never), rfl, rfl⟩
  have each (state : State) (logged : Logged surroundings options files state) (texts : List Bytes) :
      Logged surroundings options files
        ((forM texts (record surroundings options) : Action State Unit).run state).2 := by
    induction texts generalizing state with
    | nil => exact logged
    | cons text rest ih =>
        have next := logged_record free logged text
        rw [List.forM_cons, Action.run_bind]
        rcases ran : (record surroundings options text).run state with ⟨fault | _, after⟩
        · rw [ran] at next
          exact next
        · rw [ran] at next
          exact ih after next
  rw [openLog]
  by_cases unnamed : options.logFile = ""
  · rw [if_pos unnamed]
    exact start
  · rw [if_neg unnamed]
    exact each _ start surroundings.greeting

/-- Makes the process ready to serve. -/
def prepare (surroundings : Surroundings) (options : Options) (digests : Digests) :
    Action State Chunker := do
  openLog surroundings options
  openStore options digests

variable {digests : Digests} {chunker : Chunker}

/-- A process that could start has a log with a name, a chunker for its options and an open store. -/
theorem of_run_prepare {ready : State}
    (prepared : (prepare surroundings options digests).run (.start files) = (.ok chunker, ready)) :
    (openLog surroundings options).run (.start files) =
        (.ok (), ((openLog surroundings options).run (.start files)).2) ∧
      Chunker.withDigest digests options.branches options.digest = .ok chunker ∧
      ∃ opened, (Disk.openAt options.directory).run
          ((openLog surroundings options).run (.start files)).2.files = (.ok (), opened) ∧
        ready = State.filesPlace.update opened ((openLog surroundings options).run (.start files)).2 := by
  rw [prepare, Action.run_bind] at prepared
  rcases logged : (openLog surroundings options).run (.start files) with ⟨fault | _, state⟩
  · rw [logged] at prepared
    cases prepared
  rw [logged] at prepared
  simp only at prepared ⊢
  rw [openStore, Action.run_bind, Action.run_lift] at prepared
  rcases chosen : Chunker.withDigest digests options.branches options.digest with fault | other
  · rw [chosen] at prepared
    cases prepared
  rw [chosen] at prepared
  simp only at prepared
  rw [Action.run_bind, Action.run_within] at prepared
  rw [State.view_filesPlace] at prepared
  rcases ran : (Disk.openAt options.directory).run state.files with ⟨fault | _, opened⟩
  · rw [ran] at prepared
    cases prepared
  · rw [ran] at prepared
    cases prepared
    exact ⟨trivial, rfl, opened, rfl, rfl⟩

/-- A process that has opened its log has what it has to have as soon as its store is as it should be. -/
theorem sure_of_logged (logged : Logged surroundings options files state)
    (truthful : Truthful options.directory root? made opened) (here : opened.here = state.files.here)
    (kept : ∀ (names : List String) (entry : Entry), state.files.entries[names]? = some entry →
      opened.entries[names]? = some entry) :
    Sure surroundings options root? made files.here (State.filesPlace.update opened state) where
  tiers := by
    have tiers : (State.filesPlace.update opened state).tiers = ((∅, opened), Backlog.empty) := by
      have same := logged.tiers
      rcases state with ⟨⟨⟨memory, _⟩, backlog⟩, log, unlogged, moment⟩
      cases same
      rfl
    rw [tiers]
    exact Program.sure_start truthful
  stands := here.trans logged.widens.here
  log number same := ⟨0, kept _ _ (logged.log number same)⟩

/-- A process starts if its log opens, there is a chunker for its options, and its store opens. -/
theorem run_prepare_of_opens
    (logs : (openLog surroundings options).run (.start files) = (.ok (), state))
    (chosen : Chunker.withDigest digests options.branches options.digest = .ok chunker)
    (opens : (Disk.openAt options.directory).run state.files = (.ok (), opened)) :
    (prepare surroundings options digests).run (.start files) =
      (.ok chunker, State.filesPlace.update opened state) := by
  rw [prepare, Action.run_bind, logs]
  simp only
  rw [openStore, Action.run_bind, Action.run_lift, chosen]
  simp only
  rw [Action.run_bind, Action.run_within, State.view_filesPlace, opens]
  rfl

section Start

variable (tame : surroundings.Tame options made files.here)
include tame

/-- The log is at none of the places of chunks. -/
theorem Logged.unwritten (logged : Logged surroundings options files state) {key : Key} {data : Bytes}
    (known : made key data) {number : Nat}
    (entry : files.entries[spot files.here (Disk.pathOf options.directory key)]? =
      some (.file number)) :
    state.files.entries[spot files.here (logAt surroundings options 0)]? ≠ some (.file number) := by
  intro same
  refine tame.apart 0 key data known ?_
  rw [logged.widens.sound.unique _ _ number (logged.widens.kept entry) same]
  exact FileSystem.onWay_spot _ _

/-- Opening the log leaves the chunks of a store. -/
theorem follows_of_logged (usable : Usable options.directory)
    (truthful : Truthful options.directory root? made files)
    (logged : Logged surroundings options files state) :
    Disk.Follows options.directory root? made files state.files := by
  have places {root : List String} (same : root? = some root) (key : Key) :
      root ++ Disk.place key = spot files.here (Disk.pathOf options.directory key) := by
    subst same
    rw [Disk.spot_pathOf usable, Disk.Leads.root_eq truthful.leads]
  refine Disk.follows_of_widens truthful logged.widens ?_ ?_
  · intro root key data same known
    rw [places same]
    exact tame.apart 0 key data known
  · intro root key data number same known entry
    rw [places same] at entry
    exact logged.unwritten tame known entry

/-- A process starts with what it has to have if what the paths of chunks lead to is right, and is what
they led to before. -/
theorem sure_prepare (distinct : Distinct size made) (sound : files.Sound)
    (free : '\x00' ∉ options.directory.toList)
    (clear : ∀ key data, made key data → Disk.Clear files (Disk.pathOf options.directory key) data)
    {ready : State}
    (prepared : (prepare surroundings options digests).run (.start files) = (.ok chunker, ready))
    (unmoved : ∀ key data, made key data → ∀ target,
      ready.files.find? (Disk.pathOf options.directory key) = .ok (some target) →
        files.find? (Disk.pathOf options.directory key) = .ok (some target)) :
    Usable options.directory ∧ ∃ root?, Sure surroundings options root? made files.here ready := by
  obtain ⟨-, -, opened, ran, rfl⟩ := of_run_prepare prepared
  have logged : Logged surroundings options files _ := logged_openLog sound (tame.free 0)
  obtain ⟨usable, widens, root?, leads⟩ := Disk.leads_of_openAt logged.widens.sound free ran
  refine ⟨usable, root?, sure_of_logged logged ?_ widens.here fun _ _ => widens.kept⟩
  refine Disk.truthful_of_clear usable distinct widens.sound leads fun key data known target found => ?_
  have before := unmoved key data known target found
  obtain ⟨names, number, rfl, content⟩ := clear key data known target before
  have led : files.locate (Disk.pathOf options.directory key) = .ok (.file names number) :=
    FileSystem.locate_of_find? before
  have entry : files.entries[spot files.here (Disk.pathOf options.directory key)]? =
      some (.file number) := by
    have clean := (Disk.behind_pathOf usable.filled usable.free key).free
    rw [← FileSystem.namesOf_of_locate clean led]
    exact FileSystem.placed_of_locate sound led
  refine ⟨names, number, rfl, ?_⟩
  rw [widens.contents _ number (logged.widens.kept entry) not_false,
    logged.widens.contents _ number entry (logged.unwritten tame known entry), content]

/-- If the path of the store does not lead back, opening the log and the store puts nothing at the paths of
chunks. -/
theorem unmoved_of_straight (distinct : Distinct size made) (sound : files.Sound)
    (free : '\x00' ∉ options.directory.toList) (straight : ".." ∉ Path.names options.directory)
    {ready : State}
    (prepared : (prepare surroundings options digests).run (.start files) = (.ok chunker, ready))
    {key : Key} {data : Bytes} (known : made key data) {target : Target}
    (found : ready.files.find? (Disk.pathOf options.directory key) = .ok (some target)) :
    files.find? (Disk.pathOf options.directory key) = .ok (some target) := by
  obtain ⟨-, -, opened, ran, rfl⟩ := of_run_prepare prepared
  have logged : Logged surroundings options files _ := logged_openLog sound (tame.free 0)
  obtain ⟨usable, -⟩ := Disk.leads_of_openAt logged.widens.sound free ran
  have behind := Disk.behind_pathOf usable.filled usable.free key
  have before : opened.find? (Disk.pathOf options.directory key) = _ :=
    Disk.find?_pathOf_of_openAt logged.widens.sound free straight ran
      (distinct.lasting key data known)
  refine FileSystem.find?_of_widens sound logged.widens behind.free ?_
    (tame.apart 0 key data known) (before.symm.trans found)
  rw [behind.names_eq, List.mem_append, not_or]
  exact ⟨straight, fun member => (Disk.undotted_place key _ member).2 rfl⟩

end Start

/-- A log in the working directory is in nobody's way if its name is not like those of the files of chunks,
and the working directory is not inside the store. -/
theorem tame_of_plain (distinct : Distinct size made) (usable : Usable options.directory) {name : String}
    {here : List String} (always : ∀ moment, logAt surroundings options moment = name)
    (free : '\x00' ∉ name.toList) (alone : Path.names name = [name])
    (relative : Path.isAbsolute name = false) (undotted : name ≠ "." ∧ name ≠ "..")
    (unlike : ∃ c ∈ name.toList, c ∉ "0123456789abcdef.tmp".toList)
    (around : spot here options.directory <+: here → spot here options.directory = here)
    (noticed : ∀ moment tiers trouble?, Event.write trouble? ∈ surroundings.pauses moment tiers ∨
      Event.write trouble? ∈ surroundings.interludes moment tiers ∨
      surroundings.troubles moment = trouble? →
        ∀ key data, made key data → Disk.Noticed trouble? data) :
    surroundings.Tame options made here := by
  have all : ∀ value : Fin 16, Hex.digit value.val ∈ "0123456789abcdef.tmp".toList := by decide
  have digits {c : Char} {text : List Char} (known : Hex.IsDigits text) (member : c ∈ text) :
      c ∈ "0123456789abcdef.tmp".toList := by
    obtain ⟨value, small, rfl⟩ := known c member
    exact all ⟨value, small⟩
  obtain ⟨other, inside, strange⟩ := unlike
  have there : spot here name = here ++ [name] := by
    rw [spot, relative, alone]
    exact FileSystem.reach_of_plain here fun _ member => List.mem_singleton.mp member ▸ undotted
  refine ⟨fun moment => always moment ▸ free, ?_, ?_, noticed⟩
  · rintro moment key data known ⟨way, first, same⟩
    have filled := (distinct.lasting key data known).filled
    rw [always, alone] at first
    rw [always, relative, Disk.spot_pathOf usable, Disk.place_of_filled filled] at same
    rcases way with _ | ⟨step, rest⟩
    · have below : spot here options.directory ++ (Disk.folder key ++ [Disk.nameOf key]) = here := same
      have at_ := around ⟨_, below⟩
      rw [at_, List.append_right_eq_self] at below
      exact absurd below (List.append_ne_nil_of_right_ne_nil _ (List.cons_ne_nil _ _))
    · obtain ⟨rfl, none⟩ := List.cons_prefix_cons.mp first
      rw [List.prefix_nil.mp none] at same
      have last : spot here options.directory ++ (Disk.folder key ++ [Disk.nameOf key]) =
          here ++ [step] :=
        same.trans (FileSystem.reach_of_plain here fun _ member =>
          List.mem_singleton.mp member ▸ undotted)
      rw [← List.append_assoc] at last
      obtain rfl := (List.cons.inj (List.append_inj_right' last rfl)).1
      exact strange (digits (Disk.isDigits_nameOf key) inside)
  · intro moment key data known same
    rw [always, there, Disk.spot_beside usable, Disk.beside, ← List.append_assoc] at same
    obtain rfl := (List.cons.inj (List.append_inj_right' same rfl)).1
    rw [String.toList_append, List.mem_append] at inside
    rcases inside with inName | inEnding
    · exact strange (digits (Disk.isDigits_nameOf key) inName)
    · exact strange (List.mem_append_right "0123456789abcdef".toList inEnding)

end ChunkTree.Process
