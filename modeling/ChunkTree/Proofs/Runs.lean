import ChunkTree.Proofs.Services
import ChunkTree.Proofs.Starts

/-!
# Runs of processes

A run in which every durable write was done leaves on disk all chunks of the files that it stored, so
later runs with the same options read these files back (`Process.read_of_stored`), whatever happens beside
their shells as long as nothing is lost unnoticed and the log is in nobody's way.  The chunks have to be
missing, or there as files, also when the log and the base directory have been made.  If the way to the
base leads back, a directory that is made there may be at the place of a chunk, and would be taken for its
file (`Disk.run_put_of_directory`); otherwise that cannot be (`Process.unmoved_of_straight`).
-/

namespace ChunkTree

namespace Chunker

variable {chunker : Chunker}

/-- A chunker with the digest of a name has a lawful digest. -/
theorem lawful_of_withDigest {digests : Digests} (lawful : digests.Lawful) {branches : Nat}
    {name : String} (chosen : withDigest digests branches name = .ok chunker) :
    chunker.hasher.Honest ∧ chunker.keySize ≤ 64 := by
  rw [withDigest, Hasher.among] at chosen
  rcases found : digests (Fault.untilNul name) with _ | hasher
  · rw [found] at chosen
    cases chosen
  · rw [found] at chosen
    simp only at chosen
    by_cases none : hasher.digestLength = 0
    · rw [if_pos none] at chosen
      cases chosen
    rw [if_neg none] at chosen
    change new branches (some hasher) = .ok chunker at chosen
    rw [new] at chosen
    split at chosen
    · cases chosen
    split at chosen
    · cases chosen
    cases chosen
    exact ⟨lawful.honest _ hasher found, lawful.short _ hasher found⟩

/-- Chunks with lawful digests are told apart by their keys, unless two have one key. -/
theorem distinct_makes {contents : Bytes → Prop} (positive : 0 < chunker.chunkSize)
    (honest : chunker.hasher.Honest) (short : chunker.keySize ≤ 64)
    (single : ∀ key data other, chunker.Makes contents key data →
      chunker.Makes contents key other → data = other) :
    Disk.Distinct chunker.keySize (chunker.Makes contents) := by
  refine ⟨?_, single⟩
  rintro key data ⟨content, root, chunks, -, all, chunk, member, rfl, -⟩
  obtain ⟨tree, -, -, -, rfl⟩ := (chunksOf_eq_ok_iff positive).mp all
  obtain ⟨node, -, rfl⟩ := List.mem_map.mp (List.mem_toArray.mp member)
  exact ⟨honest node.data, chunker.digestLength_pos, short⟩

end Chunker

namespace Process

open Disk (Distinct Truthful Usable)

/-- The lines that are taken in a run. -/
def turns (surroundings : Surroundings) (options : Options) (digests : Digests) (input : String)
    (files : FileSystem) : List (Shell.Turn State) :=
  match (prepare surroundings options digests).run (.start files) with
  | (.error _, _) => []
  | (.ok chunker, ready) =>
    (shell surroundings options chunker).turns (Shell.lines input.toList)
      (pass surroundings options surroundings.pauses ready, Bytes.ofText Shell.prompt)

/-- The log is in nobody's way in a run, nothing is lost unnoticed, and no line does what it may not. -/
structure Permitted (surroundings : Surroundings) (options : Options) (digests : Digests)
    (chunker : Chunker) (contents : Bytes → Prop) (input : String) (files : FileSystem) : Prop where
  tame : surroundings.Tame options (chunker.Makes contents) files.here
  lines : ∀ turn ∈ turns surroundings options digests input files,
    Permits chunker contents options.directory (filesBefore turn) turn.words

/-- The second files are what permitted runs with the same options leave of the first. -/
inductive Later (options : Options) (digests : Digests) (chunker : Chunker) (contents : Bytes → Prop) :
    FileSystem → FileSystem → Prop
  | none (files : FileSystem) : Later options digests chunker contents files files
  | run {files between : FileSystem} (earlier : Later options digests chunker contents files between)
      (surroundings : Surroundings) (input : String)
      (permitted : Permitted surroundings options digests chunker contents input between) :
      Later options digests chunker contents files
        (serve surroundings options digests input between).files

variable {surroundings : Surroundings} {options : Options} {digests : Digests} {chunker : Chunker}
  {contents : Bytes → Prop} {files : FileSystem} {root? : Option (List String)} {size : Nat}
  {input : String} {ready : State}

/-- A process that cannot start serves nothing. -/
theorem serve_of_error {fault : Fault}
    (failed : (prepare surroundings options digests).run (.start files) = (.error fault, ready)) :
    (serve surroundings options digests input files).exitCode = 1 ∧
      (serve surroundings options digests input files).files = ready.files := by
  rw [prepare, Action.run_bind] at failed
  rw [serve]
  rcases logged : (openLog surroundings options).run (.start files) with ⟨other | _, state⟩
  · rw [logged] at failed
    cases failed
    exact ⟨rfl, rfl⟩
  · rw [logged] at failed
    simp only at failed ⊢
    rw [failed]
    exact ⟨rfl, rfl⟩

/-- What a process that could start comes to. -/
theorem serve_of_prepared
    (prepared : (prepare surroundings options digests).run (.start files) = (.ok chunker, ready))
    (input : String) :
    (serve surroundings options digests input files).files = (settle surroundings options
        (((shell surroundings options chunker).serve (Shell.lines input.toList)).run
          (pass surroundings options surroundings.pauses ready,
            Bytes.ofText Shell.prompt)).2.1).files ∧
      ((serve surroundings options digests input files).exitCode = 0 → (settle surroundings options
        (((shell surroundings options chunker).serve (Shell.lines input.toList)).run
          (pass surroundings options surroundings.pauses ready,
            Bytes.ofText Shell.prompt)).2.1).tiers.2.failed = 0) := by
  have served : ((shell surroundings options chunker).run input.toList).run
      (pass surroundings options surroundings.pauses ready, #[]) =
        ((shell surroundings options chunker).serve (Shell.lines input.toList)).run
          (pass surroundings options surroundings.pauses ready, Bytes.ofText Shell.prompt) := by
    rw [Shell.run, Action.run_bind, Shell.print, Action.run_update]
    simp only [Array.empty_append]
  rw [prepare, Action.run_bind] at prepared
  rw [serve]
  rcases logged : (openLog surroundings options).run (.start files) with ⟨other | _, state⟩
  · rw [logged] at prepared
    cases prepared
  rw [logged] at prepared
  simp only at prepared ⊢
  rw [prepared]
  simp only [served]
  refine ⟨rfl, fun clean => ?_⟩
  by_contra failed
  rw [if_neg fun both => failed both.1] at clean
  cases clean

section Once

variable (usable : Usable options.directory) (distinct : Distinct size (chunker.Makes contents))
  (positive : 0 < chunker.chunkSize) (honest : chunker.hasher.Honest)
  (permitted : Permitted surroundings options digests chunker contents input files)
  (prepared : (prepare surroundings options digests).run (.start files) = (.ok chunker, ready))
  (sure : Sure surroundings options root? (chunker.Makes contents) files.here ready)
include usable distinct positive honest permitted prepared sure

/-- What both tiers have in a permitted run, they have when nothing waits any more at its end. -/
theorem run_serve : ∃ last : State,
    (serve surroundings options digests input files).files = last.files ∧
    ((serve surroundings options digests input files).exitCode = 0 → last.tiers.2.failed = 0) ∧
    last.tiers.2.pending = [] ∧
    Carries surroundings options root? (chunker.Makes contents) files.here ready last ∧
    ∀ turn ∈ turns surroundings options digests input files,
      (∃ line, turn.words = Shell.words line ∧
        turn.after = (((shell surroundings options chunker).take line).run turn.before).2) ∧
      Carries surroundings options root? (chunker.Makes contents) files.here ready turn.before.1 ∧
      Carries surroundings options root? (chunker.Makes contents) files.here turn.after.1 last ∧
      ((turns surroundings options digests input files).getLast? = some turn →
        Moves surroundings options root? (chunker.Makes contents) files.here turn.after.1 last) := by
  have turns_eq : turns surroundings options digests input files =
      (shell surroundings options chunker).turns (Shell.lines input.toList)
        (pass surroundings options surroundings.pauses ready, Bytes.ofText Shell.prompt) := by
    rw [turns, prepared]
  have lines := permitted.lines
  rw [turns_eq] at lines ⊢
  obtain ⟨start, first⟩ := sure_pass usable distinct permitted.tame sure (.inl rfl)
  obtain ⟨served, each⟩ := carries_serve usable distinct permitted.tame honest start positive
    (Shell.lines input.toList) (Bytes.ofText Shell.prompt) lines
  obtain ⟨settled, moves⟩ := sure_settle usable distinct permitted.tame served.sure
  have begun : Carries surroundings options root? (chunker.Makes contents) files.here ready
      (pass surroundings options surroundings.pauses ready) := ⟨start, first.onward⟩
  have ended : Carries surroundings options root? (chunker.Makes contents) files.here _
      (settle surroundings options (((shell surroundings options chunker).serve
        (Shell.lines input.toList)).run (pass surroundings options surroundings.pauses ready,
          Bytes.ofText Shell.prompt)).2.1) := ⟨settled, moves.onward⟩
  have outcome := serve_of_prepared prepared
  refine ⟨_, (outcome input).1, (outcome input).2, pending_settle _ _ _, (begun.trans served).trans ended,
    fun turn member => ?_⟩
  obtain ⟨taken, before, after⟩ := each turn member
  refine ⟨taken, begun.trans before, after.trans ended, fun final => ?_⟩
  have last := Shell.run_serve_of_getLast? _ final
  rw [last] at moves ⊢
  exact moves

/-- When a run was clean, what a turn of it stored is on disk. -/
theorem stored_of_clean (clean : (serve surroundings options digests input files).exitCode = 0)
    {turn : Shell.Turn State} (member : turn ∈ turns surroundings options digests input files)
    {path : String} {rest : List String} (words : turn.words = "store" :: path :: rest) {key : Key}
    (printed : turn.Prints (key.toHex ++ "\n" ++ Shell.prompt)) :
    Truthful options.directory root? (chunker.Makes contents)
        (serve surroundings options digests input files).files ∧
      ∃ shape, key = chunker.nameOf (chunker.treeAt shape.depth ((filesBefore turn).read path)).data ∧
        Stored options.directory root? (chunker.Makes contents)
          (serve surroundings options digests input files).files chunker
          ((filesBefore turn).read path) shape := by
  have permits := permitted.lines turn member
  obtain ⟨last, left, unfailing, idle, carries, each⟩ :=
    run_serve usable distinct positive honest permitted prepared sure
  obtain ⟨⟨line, spoken, after⟩, before, onward, -⟩ := each turn member
  rcases turn with ⟨_, ⟨state, output⟩, _⟩
  simp only at spoken after before onward
  subst spoken after
  obtain ⟨shape, root, allowed, known, serves⟩ := run_take_store usable distinct permitted.tame honest
    before.sure positive words permits printed
  rw [left]
  refine ⟨carries.sure.tiers.truthful, shape, root, allowed, known, fun node inside => ?_⟩
  obtain ⟨held, bound, holds⟩ := serves node inside
  exact carries.sure.tiers.onDisk idle (unfailing clean) (onward.onward.memory _ _ bound) holds

end Once

/-- Runs, one after the other, keep what is on disk. -/
theorem follows_of_later
    (chosen : Chunker.withDigest digests options.branches options.digest = .ok chunker)
    (usable : Usable options.directory) (distinct : Distinct size (chunker.Makes contents))
    (positive : 0 < chunker.chunkSize) (honest : chunker.hasher.Honest) {root : List String}
    (truthful : Truthful options.directory (some root) (chunker.Makes contents) files)
    {later : FileSystem} (runs : Later options digests chunker contents files later) :
    Disk.Follows options.directory (some root) (chunker.Makes contents) files later := by
  induction runs with
  | none => exact Disk.Follows.refl truthful
  | @run between earlier surroundings input permitted ih =>
      have logged : Logged surroundings options between _ :=
        logged_openLog ih.truthful.sound (permitted.tame.free 0)
      have follows := ih.trans (follows_of_logged permitted.tame usable ih.truthful logged)
      rcases logs : (openLog surroundings options).run (.start between) with ⟨fault | _, state⟩
      · rw [logs] at follows
        have failed : (prepare surroundings options digests).run (.start between) =
            (.error fault, state) := by
          rw [prepare, Action.run_bind, logs]
        rw [(serve_of_error failed).2]
        exact follows
      · rw [logs] at follows logged
        have prepared := run_prepare_of_opens logs chosen (Disk.openAt_of_leads usable follows.truthful.leads)
        have sure : Sure surroundings options (some root) (chunker.Makes contents) between.here state :=
          sure_of_logged logged follows.truthful rfl fun _ _ => id
        obtain ⟨last, left, -, -, carries, -⟩ :=
          run_serve usable distinct positive honest permitted prepared sure
        rw [left]
        exact follows.trans ⟨carries.sure.tiers.truthful, carries.onward.disk⟩

section Letter

/-- Surroundings in which much is logged, the log is opened anew for each call of the store, and a write is
taken whenever the shell waits. -/
def letterSurroundings : Surroundings where
  logFile name _ := name
  greeting := [Bytes.ofText "started\n"]
  pauses _ _ := [.write none, .record (Bytes.ofText "waiting\n")]
  interludes _ _ := [.rotate, .record (Bytes.ofText "called\n")]
  troubles _ := none
  room _ := some 4096

/-- Options that name a directory, and a digest of sixteen bytes. -/
def letterOptions : Options := { Options.default with directory := "s", digest := "MD5" }

/-- A file with one letter in it. -/
def letterFile : FileSystem :=
  ⟨[], (∅ : Std.ExtTreeMap (List String) Entry).insert ["f"] (.file 0),
    (∅ : Std.ExtTreeMap Nat Bytes).insert 0 #[120], 1⟩

/-- The chunker of these options. -/
def letterChunker : Chunker := ⟨128, Algorithm.md5.hasher, by decide, by decide⟩

/-- The root key of the file. -/
def letterKey : Key :=
  ⟨#[50, 137, 144, 47, 80, 55, 115, 129, 127, 245, 83, 176, 123, 110, 98, 230]⟩

/-- The state of such a process when its log and its store have been opened. -/
def letterReady (files : FileSystem) : State :=
  let logged := ((openLog letterSurroundings letterOptions).run (.start files)).2
  State.filesPlace.update ((Disk.openAt "s").run logged.files).2 logged

/-- The first turn of such a process. -/
def letterTurn (files : FileSystem) (line : String) : Shell.Turn State :=
  let before := (pass letterSurroundings letterOptions letterSurroundings.pauses (letterReady files),
    Bytes.ofText Shell.prompt)
  ⟨Shell.words line.toList, before,
    (((shell letterSurroundings letterOptions letterChunker).take line.toList).run before).2⟩

/-- The line that stores the file. -/
def letterStore : String := "store f"

/-- The line that reads it back. -/
def letterRead : String := "read 3289902f503773817ff553b07b6e62e6 out"

theorem withDigest_letterChunker :
    Chunker.withDigest .standard letterOptions.branches letterOptions.digest = .ok letterChunker := by
  have upper : (Fault.untilNul "MD5").map Char.toUpper = "MD5" := by decide +kernel
  have known : Digests.standard (Fault.untilNul "MD5") = some Algorithm.md5.hasher := by
    rw [Digests.standard, Algorithm.named?, upper]
    rfl
  have digest : letterOptions.digest = "MD5" := rfl
  rw [Chunker.withDigest, Hasher.among, digest, known]
  rfl

theorem makes_letter {key : Key} {data : Bytes}
    (made : letterChunker.Makes (· = #[120]) key data) :
    key = letterKey ∧ data = #[1, 0, 0, 0, 0, 0, 0, 0, 120] := by
  have all : letterChunker.chunksOf #[120] =
      .ok (letterKey, #[⟨letterKey, some #[1, 0, 0, 0, 0, 0, 0, 0, 120], 1⟩]) := by
    decide +kernel
  obtain ⟨_, root, chunks, rfl, split, chunk, member, rfl, holds⟩ := made
  cases all.symm.trans split
  rw [Array.mem_singleton.mp member] at holds ⊢
  exact ⟨rfl, (Option.some.inj holds).symm⟩

theorem single_letter (key : Key) (data other : Bytes)
    (made : letterChunker.Makes (· = #[120]) key data)
    (also : letterChunker.Makes (· = #[120]) key other) : data = other :=
  (makes_letter made).2.trans (makes_letter also).2.symm

theorem distinct_letter : Distinct letterChunker.keySize (letterChunker.Makes (· = #[120])) :=
  Chunker.distinct_makes (by decide) Algorithm.md5.hasher_honest (by decide) single_letter

theorem sound_letterFile : letterFile.Sound := by
  have nothing (names : List String) :
      (∅ : Std.ExtTreeMap (List String) Entry)[names]? = none := Std.ExtTreeMap.getElem?_empty
  refine FileSystem.sound_empty.insert _ (.inl rfl) (nothing _) (Nat.zero_le 1) fun number same => ?_
  cases same
  refine ⟨Nat.one_pos, fun other held => ?_⟩
  cases (nothing other).symm.trans held

theorem tame_letter :
    letterSurroundings.Tame letterOptions (letterChunker.Makes (· = #[120])) [] := by
  have usable : Usable letterOptions.directory := ⟨by decide, by decide, by decide +kernel⟩
  have named (moment : Nat) : logAt letterSurroundings letterOptions moment = "swarm.log" := rfl
  refine tame_of_plain distinct_letter usable named (by decide) (by decide +kernel) (by decide +kernel)
    (by decide) ⟨'s', by decide, by decide⟩ (by decide +kernel) ?_
  rintro moment tiers trouble? (paused | called | waited) key data -
  · obtain rfl : trouble? = none := by simpa [letterSurroundings] using paused
    exact fun _ => nofun
  · simp [letterSurroundings] at called
  · cases waited
    exact fun _ => nofun

section Letters

variable {files : FileSystem}
  (logs : ((openLog letterSurroundings letterOptions).run (.start files)).1 = .ok ())
  (opens : ((Disk.openAt "s").run
    ((openLog letterSurroundings letterOptions).run (.start files)).2.files).1 = .ok ())
include logs opens

theorem run_prepare_letter :
    (prepare letterSurroundings letterOptions .standard).run (.start files) =
      (.ok letterChunker, letterReady files) := by
  have named : letterOptions.directory = "s" := rfl
  rw [letterReady]
  rcases logged : (openLog letterSurroundings letterOptions).run (.start files) with ⟨outcome, state⟩
  rw [logged] at logs opens
  obtain rfl : outcome = .ok () := logs
  rcases opened : (Disk.openAt "s").run state.files with ⟨outcome, after⟩
  simp only [opened] at opens ⊢
  subst opens
  exact run_prepare_of_opens logged withDigest_letterChunker (named ▸ opened)

theorem turns_letter {line : String}
    (single : Shell.lines (line ++ "\n").toList = [(line.toList, [])]) :
    turns letterSurroundings letterOptions .standard (line ++ "\n") files = [letterTurn files line] := by
  rw [turns, run_prepare_letter logs opens, single]
  exact Shell.turns_singleton _ _ _ _

end Letters

theorem turns_store_letter :
    turns letterSurroundings letterOptions .standard (letterStore ++ "\n") letterFile =
      [letterTurn letterFile letterStore] :=
  turns_letter (by decide +kernel) (by decide +kernel) (by decide +kernel)

theorem permitted_store_letter :
    Permitted letterSurroundings letterOptions .standard letterChunker (· = #[120])
      (letterStore ++ "\n") letterFile := by
  obtain ⟨words, led, content, apart⟩ :
      (letterTurn letterFile letterStore).words = ["store", "f"] ∧
      (filesBefore (letterTurn letterFile letterStore)).locate "f" = .ok (.file ["f"] 0) ∧
      (filesBefore (letterTurn letterFile letterStore)).content 0 = #[120] ∧
      ["f"] ≠ FileSystem.spot (filesBefore (letterTurn letterFile letterStore)).here
        (Disk.pathOf letterOptions.directory letterKey ++ ".tmp") := by
    decide +kernel
  refine ⟨tame_letter, fun turn member => ?_⟩
  rw [turns_store_letter] at member
  rw [List.mem_singleton.mp member, words]
  refine ⟨fun path rest names number spoken found => ?_, fun hex path rest root spoken => ?_⟩
  · cases spoken
    cases led.symm.trans found
    refine ⟨content, fun key data made => ?_⟩
    rw [(makes_letter made).1]
    exact apart
  · exact absurd (List.cons.inj spoken).1 (by decide)

section Reads

variable {files : FileSystem}
  (out : (filesBefore (letterTurn files letterRead)).locate "out" = .ok (.vacant ["out"]))
include out

theorem permitted_read_letter (here : files.here = [])
    (turns : turns letterSurroundings letterOptions .standard (letterRead ++ "\n") files =
      [letterTurn files letterRead])
    (words : (letterTurn files letterRead).words = ["read", "3289902f503773817ff553b07b6e62e6", "out"])
    (base : (filesBefore (letterTurn files letterRead)).locate "s" = .ok (.directory ["s"])) :
    Permitted letterSurroundings letterOptions .standard letterChunker (· = #[120])
      (letterRead ++ "\n") files := by
  refine ⟨here ▸ tame_letter, fun turn member => ?_⟩
  rw [turns] at member
  rw [List.mem_singleton.mp member, words]
  refine ⟨fun path rest names number spoken => ?_, fun hex path rest root spoken key => ?_⟩
  · exact absurd (List.cons.inj spoken).1 (by decide)
  · cases spoken
    intro root names number leads led
    cases base.symm.trans leads
    rcases led with led | led
    · cases out.symm.trans led
    · cases out.symm.trans led
      decide

theorem spares_letter (here : (filesBefore (letterTurn files letterRead)).here = []) :
    Spares letterSurroundings letterOptions (filesBefore (letterTurn files letterRead)) "out" := by
  intro moment names number led
  have named : logAt letterSurroundings letterOptions moment = "swarm.log" := rfl
  have there : FileSystem.spot [] "swarm.log" = ["swarm.log"] := by decide +kernel
  rw [named, here, there]
  rcases led with led | led
  · cases out.symm.trans led
  · cases out.symm.trans led
    decide

end Reads

end Letter

end Process

end ChunkTree
