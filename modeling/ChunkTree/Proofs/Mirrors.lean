import ChunkTree.Proofs.Fetching
import ChunkTree.Proofs.Recording
import ChunkTree.Proofs.Turns

/-!
# Shells that mirror others

Two shells whose states look alike, and go on looking alike whatever is asked of their stores and done to
their files, give the same answers to the same lines (`Shell.Mirrors.predicts_run`).
-/

namespace ChunkTree

variable {σ τ α β : Type}

namespace Action

variable {looks : τ → σ → Prop}

/-- Beside states that look alike there is the same. -/
def Alongside (looks : τ → σ → Prop) (β : Type) (seen : τ × β) (state : σ × β) : Prop :=
  looks seen.1 state.1 ∧ seen.2 = state.2

theorem Predicts.attempt {model : Action τ α} {action : Action σ α}
    (predicts : Predicts looks model action) : Predicts looks model.attempt action.attempt := by
  intro seen state like
  obtain ⟨same, left⟩ := predicts seen state like
  rw [run_attempt, run_attempt]
  exact ⟨congrArg Except.ok same, left⟩

theorem Predicts.update {change : τ → τ} {other : σ → σ}
    (changes : ∀ seen state, looks seen state → looks (change seen) (other state)) :
    Predicts looks (.update change) (.update other) :=
  fun seen state like => ⟨rfl, changes seen state like⟩

theorem Predicts.within_fst {model : Action τ α} {action : Action σ α}
    (predicts : Predicts looks model action) :
    Predicts (Alongside looks β) (model.within .fst) (action.within .fst) := by
  rintro ⟨seen, beside⟩ ⟨state, _⟩ ⟨like, rfl⟩
  obtain ⟨same, left⟩ := predicts seen state like
  rw [run_within, run_within]
  exact ⟨same, left, rfl⟩

end Action

namespace Archive

variable {relates : ∀ α : Type, Action σ α → Action τ α → Prop} {archive : Archive σ}
  {other : Archive τ}

/-- What is kept in related stores is kept alike. -/
theorem relates_keepAllowed (compatible : Action.Compatible relates)
    (chunkers : archive.chunker = other.chunker)
    (puts : ∀ chunk, relates _ (archive.store.put chunk) (other.store.put chunk))
    {part : Section σ} {otherPart : Section τ} (agrees : Section.Agrees relates part otherPart)
    (allowance : Allowance) :
    relates _ (archive.keepAllowed allowance part) (other.keepAllowed allowance otherPart) := by
  rw [keepAllowed, keepAllowed, keep, keep, Allowance.checkTree, Allowance.checkTree, chunkers,
    agrees.size_eq]
  refine compatible.bind (compatible.bind (compatible.lift _) fun _ => ?_) fun _ =>
    Chunker.relates_split compatible (fun chunk _ => puts chunk) agrees
  obtain ⟨outcome, same⟩ := allowance.check_eq_lift
    (Header.length + other.chunker.longestLeaf otherPart.size)
  rw [same, same]
  exact compatible.lift outcome

end Archive

namespace Shell

open ChunkTree.Action (Alongside Predicts)

/-- Whatever is asked of two shells in states that look alike, they answer alike, and their states go on
looking alike. -/
structure Mirrors (looks : τ → σ → Prop) (model : Shell τ) (shell : Shell σ) : Prop where
  chunker : model.archive.chunker = shell.archive.chunker
  allowance : model.allowance = shell.allowance
  keeps : ∀ chunk, Predicts looks (model.archive.store.put chunk) (shell.archive.store.put chunk)
  reads : ∀ key, Predicts looks (model.archive.store.get key) (shell.archive.store.get key)
  gets : ∀ key, Predicts looks (model.store.get key) (shell.store.get key)
  files : ∀ seen state, looks seen state → model.files.view seen = shell.files.view state
  changes : ∀ seen state, looks seen state → ∀ files,
    looks (model.files.update files seen) (shell.files.update files state)
  idle : ∀ seen state, looks seen state → looks (model.idle seen) (shell.idle state)
  room : ∀ seen state, looks seen state → model.room seen = shell.room state

theorem predicts_print (looks : τ → σ → Prop) (text : String) :
    Predicts (Alongside looks Bytes) (print text) (print text) := by
  rintro ⟨seen, output⟩ ⟨state, _⟩ ⟨like, rfl⟩
  exact ⟨rfl, like, rfl⟩

theorem predicts_report (looks : τ → σ → Prop) (label : String) (fault : Fault) :
    Predicts (Alongside looks Bytes) (report label fault) (report label fault) := by
  rw [report, report]
  by_cases foreign : fault = .foreign
  · rw [if_pos foreign, if_pos foreign]
    exact (Predicts.compatible _).lift _
  · rw [if_neg foreign, if_neg foreign]
    exact predicts_print looks _

theorem predicts_reportRead (looks : τ → σ → Prop) (fault : Fault) :
    Predicts (Alongside looks Bytes) (reportRead fault) (reportRead fault) := by
  cases fault with
  | chunkMissing key => exact predicts_print looks _
  | _ => exact predicts_report looks _ _

namespace Mirrors

variable {looks : τ → σ → Prop} {model : Shell τ} {shell : Shell σ} (mirrors : Mirrors looks model shell)
include mirrors

theorem predicts_within_files (action : Action FileSystem α) :
    Predicts looks (action.within model.files) (action.within shell.files) := by
  intro seen state like
  rw [Action.run_within, Action.run_within, mirrors.files seen state like]
  exact ⟨rfl, mirrors.changes seen state like _⟩

theorem predicts_keepFile (path : String) : Predicts looks (model.keepFile path) (shell.keepFile path) := by
  have compatible := Predicts.compatible looks
  rw [keepFile, keepFile, mirrors.allowance]
  refine compatible.bind (mirrors.predicts_within_files _) fun part =>
    Archive.relates_keepAllowed compatible mirrors.chunker mirrors.keeps ?_ shell.allowance
  have related : Section.Relates (fun _ => Predicts looks) (part.within model.files)
      (part.within shell.files) :=
    ⟨rfl, rfl, fun start count => mirrors.predicts_within_files _⟩
  exact related.agrees compatible

/-- Reading into outputs that are alike goes alike. -/
theorem predicts_readToAllowed {sink : Sink (τ × β)} {other : Sink (σ × β)}
    (sinks : ∀ bytes, Predicts (Alongside looks β) (sink bytes) (other bytes)) (root : Key) :
    Predicts (Alongside looks β) ((model.archive.within .fst).readToAllowed model.allowance root sink)
      ((shell.archive.within .fst).readToAllowed shell.allowance root other) := by
  rw [mirrors.allowance]
  exact Archive.relates_readToAllowed (Predicts.compatible (Alongside looks β)) mirrors.chunker
    (fun key => (mirrors.reads key).within_fst) sinks _ root

theorem predicts_filing (bytes : Bytes) :
    Predicts (Alongside looks OutputFile) (model.filing bytes) (shell.filing bytes) := by
  rintro ⟨seen, file⟩ ⟨state, _⟩ ⟨like, rfl⟩
  rw [filing, filing, Action.run_of, Action.run_of]
  simp only [mirrors.files seen state like]
  exact ⟨trivial, mirrors.changes seen state like _, rfl⟩

theorem predicts_storeFile (path : String) :
    Predicts (Alongside looks Bytes) (model.storeFile path) (shell.storeFile path) := by
  rw [storeFile, storeFile, ← keepFile, ← keepFile]
  refine (Predicts.compatible _).bind (mirrors.predicts_keepFile path).within_fst.attempt fun outcome => ?_
  cases outcome with
  | error fault => exact predicts_report looks _ fault
  | ok root => exact predicts_print looks _

theorem predicts_readOut (root : Key) :
    Predicts (Alongside looks Bytes) (model.readOut root) (shell.readOut root) := by
  have sinks (bytes : Bytes) : Predicts (Alongside looks Bytes) (printing bytes) (printing bytes) := by
    rintro ⟨seen, output⟩ ⟨state, _⟩ ⟨like, rfl⟩
    exact ⟨rfl, like, rfl⟩
  refine (Predicts.compatible _).bind (mirrors.predicts_readToAllowed sinks root).attempt fun outcome => ?_
  cases outcome with
  | error fault => exact predicts_reportRead looks fault
  | ok count => exact predicts_print looks _

theorem predicts_fill (root : Key) (file : OutputFile) :
    Predicts looks (model.fill root file) (shell.fill root file) := by
  intro seen state like
  obtain ⟨same, left, closes⟩ := mirrors.predicts_readToAllowed mirrors.predicts_filing root
    (seen, file) (state, file) ⟨like, rfl⟩
  rw [run_fill, run_fill]
  refine ⟨congrArg Except.ok same, ?_⟩
  simp only [mirrors.files _ _ left, closes]
  exact mirrors.changes _ _ left _

theorem predicts_readFile (root : Key) (path : String) :
    Predicts (Alongside looks Bytes) (model.readFile root path) (shell.readFile root path) := by
  rintro ⟨seen, output⟩ ⟨state, _⟩ ⟨like, rfl⟩
  rw [readFile, readFile, Action.run_bind, Action.run_bind, Action.run_state, Action.run_state]
  simp only [mirrors.files seen state like, mirrors.room seen state like]
  rcases (shell.files.view state).create path with reason | ⟨number, files⟩
  · exact predicts_print looks _ (seen, output) (state, output) ⟨like, rfl⟩
  have compatible := Predicts.compatible (Alongside looks Bytes)
  refine compatible.bind (Predicts.update ?_) (fun _ =>
    compatible.bind (mirrors.predicts_fill root _).within_fst fun outcome => ?_)
      (seen, output) (state, output) ⟨like, rfl⟩
  · rintro ⟨seen, output⟩ ⟨state, _⟩ ⟨like, rfl⟩
    exact ⟨mirrors.changes seen state like files, rfl⟩
  · cases outcome with
    | error fault => exact predicts_reportRead looks fault
    | ok count => exact predicts_print looks _

theorem predicts_read (hex path : String) :
    Predicts (Alongside looks Bytes) (model.read hex path) (shell.read hex path) := by
  rw [read, read]
  cases Key.ofHex hex with
  | error fault => exact predicts_reportRead looks fault
  | ok root =>
      by_cases printed : path = ""
      · simp only [if_pos printed]
        exact mirrors.predicts_readOut root
      · simp only [if_neg printed]
        exact mirrors.predicts_readFile root path

theorem predicts_has (hex : String) :
    Predicts (Alongside looks Bytes) (model.has hex) (shell.has hex) := by
  have compatible := Predicts.compatible looks
  have asks : Predicts looks (model.hasAt hex) (shell.hasAt hex) :=
    compatible.bind (compatible.lift _) fun key =>
      compatible.bind (mirrors.gets key) fun _ => compatible.pure _
  refine (Predicts.compatible _).bind asks.within_fst.attempt fun outcome => ?_
  rcases outcome with fault | _ | _
  · exact predicts_report looks _ fault
  · exact predicts_print looks _
  · exact predicts_print looks _

theorem predicts_size (hex : String) :
    Predicts (Alongside looks Bytes) (model.size hex) (shell.size hex) := by
  have compatible := Predicts.compatible looks
  have fetches (key : Key) : Predicts looks
      (model.archive.chunker.fetch model.archive.store key)
      (shell.archive.chunker.fetch shell.archive.store key) := by
    rw [mirrors.chunker]
    exact Chunker.relates_fetch compatible mirrors.reads key
  have measures : Predicts looks (model.sizeAt hex) (shell.sizeAt hex) := by
    refine compatible.bind (compatible.lift _) fun root =>
      Archive.relates_openAt_of_fetch compatible mirrors.chunker fetches (fun part other related => ?_) root
    rw [related.size_eq]
    exact compatible.pure _
  refine (Predicts.compatible _).bind measures.within_fst.attempt fun outcome => ?_
  cases outcome with
  | error fault => exact predicts_report looks _ fault
  | ok size => exact predicts_print looks _

theorem predicts_obey (line : List String) :
    Predicts (Alongside looks Bytes) (model.obey line) (shell.obey line) := by
  rcases line with _ | ⟨command, arguments⟩
  · exact (Predicts.compatible _).pure _
  rw [obey, obey, respond.eq_def, respond.eq_def]
  by_cases help : command = "help"
  · rw [if_pos help, if_pos help]
    exact predicts_print looks _
  by_cases empty : arguments.getD 0 "" = ""
  · rw [if_neg help, if_neg help, if_pos empty, if_pos empty]
    exact predicts_print looks _
  rw [if_neg help, if_neg help, if_neg empty, if_neg empty]
  split
  · exact mirrors.predicts_storeFile _
  · exact mirrors.predicts_read _ _
  · exact mirrors.predicts_has _
  · exact mirrors.predicts_size _
  · exact predicts_print looks _

theorem predicts_take (line : List Char) :
    Predicts (Alongside looks Bytes) (model.take line) (shell.take line) := by
  have compatible := Predicts.compatible (Alongside looks Bytes)
  rw [take, take]
  by_cases quit : (words line).head? = some "quit"
  · simp only [if_pos quit]
    exact compatible.pure _
  · simp only [if_neg quit]
    refine compatible.bind (mirrors.predicts_obey _) fun _ =>
      compatible.bind (Predicts.update ?_) fun _ =>
        compatible.bind (predicts_print looks _) fun _ => compatible.pure _
    rintro ⟨seen, output⟩ ⟨state, _⟩ ⟨like, rfl⟩
    exact ⟨mirrors.idle seen state like, rfl⟩

/-- Lines are served alike. -/
theorem predicts_serve (lines : List (List Char × List Char)) :
    Predicts (Alongside looks Bytes) (model.serve lines) (shell.serve lines) := by
  have compatible := Predicts.compatible (Alongside looks Bytes)
  induction lines with
  | nil => exact compatible.pure _
  | cons pair others ih =>
      obtain ⟨line, rest⟩ := pair
      rw [serve, serve]
      refine compatible.bind (mirrors.predicts_take line) fun goesOn => ?_
      cases goesOn
      · exact compatible.pure _
      · exact ih

/-- **Shells whose states look alike run alike.** -/
theorem predicts_run (text : List Char) :
    Predicts (Alongside looks Bytes) (model.run text) (shell.run text) :=
  (Predicts.compatible _).bind (predicts_print looks _) fun _ => mirrors.predicts_serve _

end Mirrors

end Shell

end ChunkTree
