import ChunkTree.Proofs.DiskRuns
import ChunkTree.Proofs.FileMoves
import Mathlib.Data.List.Infix

/-!
# How stores on disk fail

A store on disk has faults of its own for what goes wrong with files (`Fault.OfDisk`).  Two things are
not turned into such faults: whether a path leads anywhere cannot be told if a name in it is too long, and
what the path of a key leads to may be a directory, which opens but cannot be read.  Nothing else comes of
any key (`Disk.endings`).  Which keys these are is settled for every directory that stores were used on,
with keys of any length (`Disk.Used`): the failed putting of a key that is too long makes the directories
without which nobody would find out that it is.
-/

namespace ChunkTree

/-- The faults that a store on disk has of its own. -/
def Fault.OfDisk : Fault → Prop
  | .baseUncreated _ | .directoryUncreated _ | .chunkFileUncreated .. | .chunkUnplaced _
  | .chunkFileUnopened _ => True
  | _ => False

namespace FileSystem

variable {files : FileSystem}

theorem walk_error_cases {wanted : Bool} {here names : List String} {reason : PathFault}
    (lost : files.walk wanted here names = .error reason) :
    reason = .missing ∨ reason = .notDirectory ∨ reason = .nameTooLong := by
  fun_induction files.walk wanted here names with
  | case1 here => cases lost
  | case2 here rest ih => exact ih lost
  | case3 here rest _ ih => exact ih lost
  | case4 here name rest _ _ long => exact .inr (.inr (Except.error.inj lost).symm)
  | case5 here name rest _ _ _ next entry ih => exact ih lost
  | case6 here name rest _ _ _ next number entry last => cases lost
  | case7 here name rest _ _ _ next number entry more => exact .inr (.inl (Except.error.inj lost).symm)
  | case8 here name _ _ _ next entry => cases lost
  | case9 here name rest _ _ _ next entry more => exact .inl (Except.error.inj lost).symm

theorem locate_error_cases {path : String} {reason : PathFault}
    (lost : files.locate path = .error reason) :
    reason = .missing ∨ reason = .notDirectory ∨ reason = .nameTooLong := by
  unfold locate at lost
  simp only at lost
  split at lost
  · exact .inl (Except.error.inj lost).symm
  split at lost
  · exact .inr (.inr (Except.error.inj lost).symm)
  · exact walk_error_cases lost

/-- Whether a path leads anywhere can be told unless it, or a name in it, is too long. -/
theorem find?_eq_error_iff {path : String} {reason : PathFault} :
    files.find? path = .error reason ↔
      reason = .nameTooLong ∧ files.locate path = .error .nameTooLong := by
  rw [find?]
  rcases led : files.locate path with other | (_ | _ | _)
  · rcases locate_error_cases led with rfl | rfl | rfl
    · simp
    · simp
    · simp [eq_comm]
  · simp
  · simp
  · simp

/-- Plain names are not too long. -/
theorem walk_ne_nameTooLong {wanted : Bool} {here names : List String} (plain : Plain names) :
    files.walk wanted here names ≠ .error .nameTooLong := by
  intro lost
  fun_induction files.walk wanted here names with
  | case1 here => cases lost
  | case2 here rest ih => exact ih plain.tail lost
  | case3 here rest _ ih => exact ih plain.tail lost
  | case4 here name rest _ _ long => exact Nat.not_lt_of_le (plain name List.mem_cons_self).2.2 long
  | case5 here name rest _ _ _ next entry ih => exact ih plain.tail lost
  | case6 here name rest _ _ _ next number entry last => cases lost
  | case7 here name rest _ _ _ next number entry more => cases lost
  | case8 here name _ _ _ next entry => cases lost
  | case9 here name rest _ _ _ next entry more => cases lost

/-- Where plain names lead to nothing, names behind them lead nowhere. -/
theorem walk_append_of_no_entry {wanted : Bool} {here names more : List String} (plain : Plain names)
    (nothing : files.entries[here ++ names]? = none) (some : names ≠ []) (further : more ≠ []) :
    files.walk wanted here (names ++ more) = .error .missing ∨
      files.walk wanted here (names ++ more) = .error .notDirectory := by
  induction names generalizing here with
  | nil => exact absurd rfl some
  | cons name rest ih =>
      obtain ⟨single, double, limit⟩ := plain name List.mem_cons_self
      have short := Nat.not_lt_of_le limit
      have behind : rest ++ more ≠ [] := List.append_ne_nil_of_right_ne_nil _ further
      rw [List.cons_append]
      rcases held : files.entries[here ++ [name]]? with _ | _ | number
      · rw [walk_vacant single double short held, if_neg behind]
        exact .inl rfl
      · rw [walk_into single double short held]
        rw [List.append_cons] at nothing
        by_cases last : rest = []
        · rw [last, List.append_nil, held] at nothing
          cases nothing
        · exact ih plain.tail nothing last
      · rw [walk_onto single double short held, if_neg fun both => behind both.1]
        exact .inr rfl

end FileSystem

namespace Disk

open FileSystem (Inside Skirts KeepsDirectories Grown Refiled)

variable {root : List String} {bases : List String} {base : String} {files later : FileSystem}
  {key : Key} {data : Bytes}

/-- The path of the file of a key, or a name in it, is too long for the path to be followed. -/
def Overlong (files : FileSystem) (base : String) (key : Key) : Prop :=
  files.locate (pathOf base key) = .error .nameTooLong

/-- The path of the file of a key leads to a directory. -/
def Obstructed (files : FileSystem) (base : String) (key : Key) : Prop :=
  ∃ names, files.locate (pathOf base key) = .ok (.directory names)

/-- How the operations of a store end for a key: nothing else than what is documented comes of a path
that can be followed, but for the reading of a directory. -/
structure Endings (files : FileSystem) (base : String) (key : Key) : Prop where
  overlong : Overlong files base key →
    (has base key).run files = (.error (tooLong base key), files) ∧
    (get base key).run files = (.error (tooLong base key), files) ∧
    ∀ data size, (put base ⟨key, some data, size⟩).run files = (.error (tooLong base key), files)
  obstructed : Obstructed files base key → (get base key).run files = (.error .directoryRead, files)
  request : ∀ size, (put base ⟨key, none, size⟩).run files = (.error (.requestRefused .disk), files)
  put : ¬ Overlong files base key → ∀ data size fault,
    ((put base ⟨key, some data, size⟩).run files).1 = .error fault → fault.OfDisk
  get : ¬ Overlong files base key → ¬ Obstructed files base key →
    (∃ chunk?, (get base key).run files = (.ok chunk?, files)) ∨
      ∃ names number, files.locate (pathOf base key) = .ok (.file names number) ∧
        (files.content number).size < 8 ∧
        (get base key).run files = (.error (.noSizeHeader (files.content number).size), files)
  has : ¬ Overlong files base key → ∃ found, (has base key).run files = (.ok found, files)

theorem ofDisk_of_run_writeFile {fault : Fault}
    (failed : ((writeFile base key data).run files).1 = .error fault) : fault.OfDisk := by
  unfold writeFile move Action.of Action.run at failed
  simp only at failed
  split at failed
  · cases failed
    trivial
  · split at failed
    · cases failed
    · cases failed
      trivial

theorem endings (files : FileSystem) (base : String) (key : Key) : Endings files base key := by
  have followed (short : ¬ Overlong files base key) :
      ∃ target?, files.find? (pathOf base key) = .ok target? := by
    rcases found : files.find? (pathOf base key) with reason | target?
    · exact absurd (FileSystem.find?_eq_error_iff.mp found).2 short
    · exact ⟨target?, rfl⟩
  refine ⟨?_, ?_, fun _ => rfl, ?_, ?_, ?_⟩
  · intro long
    have lost := FileSystem.find?_eq_error_iff.mpr ⟨rfl, long⟩
    refine ⟨?_, ?_, fun data size => ?_⟩
    · rw [has, FileSystem.run_present, lost]
      rfl
    · rw [run_get, long]
      rfl
    · rw [run_put, lost]
      rfl
  · intro obstructed
    obtain ⟨names, led⟩ := obstructed
    rw [run_get, led]
    rfl
  · intro short data size fault failed
    obtain ⟨target?, found⟩ := followed short
    rw [run_put, found] at failed
    cases target? with
    | some target => cases failed
    | none =>
        simp only at failed
        split at failed
        · cases failed
          trivial
        · exact ofDisk_of_run_writeFile failed
  · intro short clear
    rw [run_get]
    rcases led : files.locate (pathOf base key) with reason | (names | ⟨names, number⟩ | names)
    · rcases FileSystem.locate_error_cases led with rfl | rfl | rfl
      · exact .inl ⟨none, rfl⟩
      · exact .inl ⟨none, rfl⟩
      · exact absurd led short
    · exact absurd ⟨names, led⟩ clear
    · by_cases headless : (files.content number).size < 8
      · have decoded : Header.decode (files.content number) = .error _ := if_pos headless
        refine .inr ⟨names, number, rfl, headless, ?_⟩
        rw [answer, decoded]
        rfl
      · obtain ⟨size, decoded⟩ : ∃ size, Header.decode (files.content number) = .ok size :=
          ⟨_, if_neg headless⟩
        refine .inl ⟨some ⟨key, some (files.content number), size⟩, ?_⟩
        rw [answer, decoded]
        rfl
    · exact .inl ⟨none, rfl⟩
  · intro short
    obtain ⟨target?, found⟩ := followed short
    rw [has, FileSystem.run_present, found]
    exact ⟨_, rfl⟩

/-- What is below the directory of a store, whatever keys it was used with: files, and directories for
files. -/
structure Housed (root : List String) (files : FileSystem) : Prop where
  sound : files.Sound
  apart : ¬ Inside root files.here
  rooted : ∀ number, files.entries[root]? ≠ some (.file number)
  folders : ∀ below, below ≠ [] → files.entries[root ++ below]? = some .directory → Foldered below

theorem Bare.housed (bare : Bare root files) : Housed root files where
  sound := bare.sound
  apart := bare.mirrors.apart
  rooted := bare.rooted
  folders := by
    intro below some held
    rw [bare.nothing _ ⟨below, some, rfl⟩] at held
    cases held

namespace Housed

variable (housed : Housed root files)
include housed

/-- Directories for files may be added, and directories outside. -/
theorem of_prepared (prepared : Prepared root files later) : Housed root later := by
  obtain ⟨⟨bound, grown⟩, outside⟩ := prepared
  constructor
  · exact grown.sound
  · rw [grown.here]
    exact housed.apart
  · intro number held
    rcases grown.entries root with same | ⟨-, made, -⟩
    · exact housed.rooted number (same.symm.trans held)
    · rw [made] at held
      cases held
  · intro below some held
    by_contra other
    exact other (housed.folders below some ((outside below some other).symm.trans held))

/-- Files may come and go. -/
theorem of_refiled (directory : files.IsDirectory root) (refiled : Refiled files later) :
    Housed root later where
  sound := refiled.sound
  apart := by
    rw [refiled.here]
    exact housed.apart
  rooted := refiled.not_file directory housed.rooted
  folders below some held := housed.folders below some ((refiled.directories _).mp held)

theorem emptied : Housed root (files.emptied root) where
  sound := housed.sound.emptied housed.apart
  apart := housed.apart
  rooted := by
    intro number held
    rw [files.getElem?_emptied.2 fun inside => (FileSystem.inside_iff.mp inside).1 rfl] at held
    exact housed.rooted number held
  folders := by
    intro below some held
    rw [files.getElem?_emptied.1 ⟨below, some, rfl⟩] at held
    cases held

end Housed

/-- Whatever making sure of the directory for the file of a key comes to, it adds but directories. -/
theorem Serves.prepared_ensureDirectory (serves : Serves root base files) (sound : files.Sound)
    (key : Key) : Prepared root files
      ((FileSystem.ensureDirectory (Path.trimmed (directoryOf base key))).run files).2 := by
  by_cases few : key.size ≤ 3
  · rw [serves.run_ensureDirectory_of_short few]
    exact .refl sound
  rcases ensureDirectory_cases serves.leads serves.usable.filled serves.usable.free
    (Nat.lt_of_not_le few) with same | made
  · rw [same]
    exact .refl sound
  · rw [made]
    exact prepared_makeWay sound (serves.isDirectory sound) key

/-- Writing the file of a chunk, well or not, concerns files alone. -/
theorem refiled_writeFile (sound : files.Sound) (base : String) (key : Key) (data : Bytes) :
    Refiled files ((writeFile base key data).run files).2 := by
  unfold writeFile move Action.of Action.run
  simp only
  rcases created : files.create (pathOf base key ++ ".tmp") with reason | ⟨number, opened⟩
  · exact .refl sound
  obtain ⟨names, opens⟩ := FileSystem.opens_of_create sound created
  have rewrites := opened.rewrites_setContent number data
  have written := (FileSystem.refiled_of_opens sound opens).trans
    (FileSystem.refiled_of_rewrites opens.sound rewrites)
  simp only
  rcases renamed : (opened.setContent number data).rename (pathOf base key ++ ".tmp")
    (pathOf base key) with reason | after
  · have led : (opened.setContent number data).locate (pathOf base key ++ ".tmp") =
        .ok (.file names number) := (rewrites.locate_eq _).trans opens.leads
    simp only [FileSystem.remove, Action.of, led]
    exact written.trans (FileSystem.refiled_erase written.sound opens.entry)
  · exact written.trans (FileSystem.refiled_of_rename written.sound renamed)

/-- Putting a chunk, whatever its key and however the put ends, leaves files and directories for files. -/
theorem Housed.put (housed : Housed root files) (serves : Serves root base files) (chunk : Chunk) :
    Housed root ((put base chunk).run files).2 ∧
      KeepsDirectories files ((put base chunk).run files).2 := by
  have unmoved : files.KeepsDirectories files := ⟨rfl, fun _ => id⟩
  obtain ⟨key, data?, size⟩ := chunk
  cases data? with
  | none => exact ⟨housed, unmoved⟩
  | some data =>
      rw [run_put]
      rcases files.find? (pathOf base key) with reason | _ | target
      · exact ⟨housed, unmoved⟩
      · have prepared := serves.prepared_ensureDirectory housed.sound key
        simp only
        rcases ran : (FileSystem.ensureDirectory (Path.trimmed (directoryOf base key))).run files with
          ⟨cause | _, after⟩
        · rw [ran] at prepared
          exact ⟨housed.of_prepared prepared, prepared.keepsDirectories⟩
        · rw [ran] at prepared
          have keeps : files.KeepsDirectories after := prepared.keepsDirectories
          have still : Housed root after := housed.of_prepared prepared
          have there := serves.of_keeps keeps
          simp only
          have refiled := refiled_writeFile still.sound base key data
          refine ⟨still.of_refiled (there.isDirectory still.sound) refiled, ?_⟩
          exact ⟨refiled.here.trans keeps.here, fun names held =>
            refiled.keepsDirectories.directories names (keeps.directories names held)⟩
      · exact ⟨housed, unmoved⟩

/-- What can come of a directory that was missing or empty and that nobody writes but the stores that
are opened on it, for keys of any length: the bases that were opened, and the files. -/
inductive Used (root : List String) : List String → FileSystem → Prop where
  | bare {files : FileSystem} (bare : Bare root files) : Used root [] files
  | opened {bases : List String} {files later : FileSystem} {base : String}
      (used : Used root bases files) (free : '\x00' ∉ base.toList)
      (skirts : Skirts root (files.startOf base) (Path.names base))
      (opened : (openAt base).run files = (.ok (), later)) : Used root (base :: bases) later
  | put {bases : List String} {files : FileSystem} {base : String} (used : Used root bases files)
      (among : base ∈ bases) (chunk : Chunk) : Used root bases ((put base chunk).run files).2
  | get {bases : List String} {files : FileSystem} {base : String} (used : Used root bases files)
      (among : base ∈ bases) (key : Key) : Used root bases ((get base key).run files).2
  | has {bases : List String} {files : FileSystem} {base : String} (used : Used root bases files)
      (among : base ∈ bases) (key : Key) : Used root bases ((has base key).run files).2
  | clear {bases : List String} {files : FileSystem} {base : String} (used : Used root bases files)
      (among : base ∈ bases) : Used root bases ((clear base).run files).2

/-- Every store that is open serves the directory, and there are but files and directories for files. -/
theorem housed_of_used (used : Used root bases files) :
    Housed root files ∧ ∀ base ∈ bases, Serves root base files := by
  induction used with
  | bare bare => exact ⟨bare.housed, fun _ never => absurd never List.not_mem_nil⟩
  | opened used free skirts opened ih =>
      obtain ⟨housed, serving⟩ := ih
      obtain ⟨serves, prepared⟩ := serves_of_openAt housed.sound housed.rooted free skirts opened
      refine ⟨housed.of_prepared prepared, fun other member => ?_⟩
      rcases List.mem_cons.mp member with rfl | before
      · exact serves
      · exact (serving other before).of_keeps prepared.keepsDirectories
  | put used among chunk ih =>
      obtain ⟨housed, serving⟩ := ih
      obtain ⟨still, keeps⟩ := housed.put (serving _ among) chunk
      exact ⟨still, fun other member => (serving other member).of_keeps keeps⟩
  | get used among key ih =>
      rw [run_get]
      exact ih
  | @has bases files base used among key ih =>
      rw [Disk.has, FileSystem.run_present]
      rcases files.find? (pathOf base key) with reason | target?
      · exact ih
      · exact ih
  | clear used among ih =>
      obtain ⟨housed, serving⟩ := ih
      rw [(serving _ among).run_clear]
      exact ⟨housed.emptied, fun other member => (serving other member).emptied⟩

section Odd

variable (housed : Housed root files) (serves : Serves root base files)

include housed serves

/-- A name is too long beyond 130 bytes, which shows if the directory for the file is there. -/
theorem overlong_iff : Overlong files base key ↔
    FileSystem.pathLimit ≤ (pathOf base key).utf8ByteSize ∨
      130 < key.size ∧ files.entries[root ++ folder key]? = some .directory := by
  unfold Overlong
  by_cases long : FileSystem.pathLimit ≤ (pathOf base key).utf8ByteSize
  · exact iff_of_true (serves.locate_of_long long) (.inl long)
  rw [serves.locate_of_short key (Nat.lt_of_not_le long), or_iff_right long]
  by_cases few : key.size ≤ 130
  · refine iff_of_false (fun lost => ?_) fun many => Nat.not_lt_of_le few many.1
    by_cases empty : key.size = 0
    · rw [place_eq_nil_iff.mpr empty] at lost
      cases lost
    · exact FileSystem.walk_ne_nameTooLong (plain_place_of_le empty few) lost
  have many := Nat.lt_of_not_le few
  have some : folder key ≠ [] := folder_ne_nil (by omega)
  have further : [nameOf key] ≠ [] := List.cons_ne_nil _ _
  have plain := plain_folder key
  rw [place_of_filled (by omega)]
  rcases held : files.entries[root ++ folder key]? with _ | _ | number
  · refine iff_of_false (fun lost => ?_) fun there => by cases there.2
    rcases FileSystem.walk_append_of_no_entry plain held some further with led | led
    · cases led.symm.trans lost
    · cases led.symm.trans lost
  · refine iff_of_true ?_ ⟨many, rfl⟩
    apply FileSystem.walk_of_long housed.sound plain (.inr held)
    rw [utf8ByteSize_nameOf, if_neg (by omega), FileSystem.nameLimit]
    omega
  · refine iff_of_false (fun lost => ?_) fun there => by cases there.2
    have blocked := FileSystem.walk_true_of_file
      (FileSystem.walk_of_entry housed.sound plain held some)
    rw [FileSystem.walk_append_of_notDirectory blocked _ further] at lost
    cases lost

/-- A directory is in the place of a file if the key is empty, or is one byte with which longer keys
begin whose files have been there. -/
theorem obstructed_iff : Obstructed files base key ↔
    (pathOf base key).utf8ByteSize < FileSystem.pathLimit ∧
      (key.size = 0 ∨ key.size = 1 ∧ files.entries[root ++ place key]? = some .directory) := by
  constructor
  · intro ⟨names, led⟩
    have short : (pathOf base key).utf8ByteSize < FileSystem.pathLimit := by
      by_contra long
      rw [serves.locate_of_long (Nat.le_of_not_lt long)] at led
      cases led
    refine ⟨short, ?_⟩
    obtain rfl : names = root ++ place key :=
      names_of_locate_pathOf serves.leads serves.usable.filled serves.usable.free led
    by_cases empty : key.size = 0
    · exact .inl empty
    have bare : place key ≠ [] := place_eq_nil_iff.not.mpr empty
    rcases FileSystem.placed_of_locate housed.sound led with never | held
    · exact absurd (List.append_eq_nil_iff.mp never).2 bare
    · have foldered := housed.folders _ bare held
      have few : ¬ 1 < key.size := fun long => not_foldered_place long foldered
      exact .inr ⟨by omega, held⟩
  · intro ⟨short, odd⟩
    rw [Obstructed, serves.locate_of_short key short]
    rcases odd with empty | ⟨single, held⟩
    · rw [place_eq_nil_iff.mpr empty]
      exact ⟨root, rfl⟩
    · have filled : key.size ≠ 0 := by omega
      rw [endsInSlash_pathOf_of_filled filled, FileSystem.walk_of_entry housed.sound
        (plain_place_of_le filled (by omega)) held (place_eq_nil_iff.not.mpr filled)]
      exact ⟨_, rfl⟩

/-- A chunk whose file would have too long a name is not put, but leaves a directory behind, and nothing
else can be done with its key from then on. -/
theorem run_put_of_many (many : 130 < key.size)
    (short : (pathOf base key).utf8ByteSize < FileSystem.pathLimit) (followed : ¬ Overlong files base key)
    (way : ∀ taken number, taken <+: folder key →
      files.entries[root ++ taken]? ≠ some (.file number)) (data : Bytes) (size : UInt64) :
    ∃ later, (put base ⟨key, some data, size⟩).run files =
        (.error (.chunkFileUncreated (pathOf base key ++ ".tmp")), later) ∧
      Overlong later base key := by
  have some : folder key ≠ [] := folder_ne_nil (by omega)
  have vacant : files.entries[root ++ folder key]? = none := by
    rcases held : files.entries[root ++ folder key]? with _ | _ | number
    · rfl
    · exact absurd ((overlong_iff housed serves).mpr (.inr ⟨many, held⟩)) followed
    · exact absurd held (way _ number List.prefix_rfl)
  have nowhere : files.find? (pathOf base key) = .ok none := by
    rw [FileSystem.find?_eq_found, serves.locate_of_short key short, place_of_filled (by omega)]
    rcases FileSystem.walk_append_of_no_entry (plain_folder key) vacant some
      (List.cons_ne_nil (nameOf key) []) with led | led
    · rw [led]
      rfl
    · rw [led]
      rfl
  obtain ⟨later, ensured, prepared, directory⟩ :=
    serves.run_ensureDirectory housed.sound key short way
  have still := housed.of_prepared prepared
  have there := serves.of_keeps prepared.keepsDirectories
  have lost : later.locate (pathOf base key ++ ".tmp") = .error .nameTooLong := by
    rw [later.locate_of_behind (behind_beside serves.usable.filled serves.usable.free key)]
    split
    · rfl
    · rw [FileSystem.walk_append there.leads, beside]
      apply FileSystem.walk_of_long still.sound (plain_folder key) directory
      rw [String.utf8ByteSize_append, utf8ByteSize_nameOf, if_neg (by omega), FileSystem.nameLimit]
      omega
  have held : later.entries[root ++ folder key]? = .some .directory := by
    rcases directory with never | held
    · exact absurd (List.append_eq_nil_iff.mp never).2 some
    · exact held
  refine ⟨later, ?_, (overlong_iff still there).mpr (.inr ⟨many, held⟩)⟩
  rw [run_put, nowhere, ensured]
  exact run_writeFile_of_error lost data

end Odd

/-- **Stores on disk fail as documented, but for three kinds of keys.** Whatever the files and the base,
nothing else than what is documented comes of a key unless its path cannot be followed for its length,
or leads to a directory.  After any use of stores on one directory that is their own, the first is so
exactly if the whole path is too long, or the key has more than 130 bytes and the directory for its file
is there, which a single put of it that fails leaves behind; and the second exactly if the key is empty,
or has one byte and the directory for files of longer keys is in its place. -/
theorem endings_of_used (files : FileSystem) (base : String) (key : Key) :
    Endings files base key ∧
    ∀ {root bases : List String}, Used root bases files → base ∈ bases →
      (Overlong files base key ↔
        FileSystem.pathLimit ≤ (pathOf base key).utf8ByteSize ∨
          130 < key.size ∧ files.entries[root ++ folder key]? = some .directory) ∧
      (130 < key.size → ¬ Overlong files base key →
        (∀ taken number, taken <+: folder key → files.entries[root ++ taken]? ≠ some (.file number)) →
        ∀ data size, ∃ later, (put base ⟨key, some data, size⟩).run files =
            (.error (.chunkFileUncreated (pathOf base key ++ ".tmp")), later) ∧
          Overlong later base key) ∧
      (Obstructed files base key ↔
        (pathOf base key).utf8ByteSize < FileSystem.pathLimit ∧
          (key.size = 0 ∨ key.size = 1 ∧ files.entries[root ++ place key]? = some .directory)) := by
  refine ⟨endings files base key, ?_⟩
  intro root bases used among
  obtain ⟨housed, serving⟩ := housed_of_used used
  have serves := serving base among
  refine ⟨overlong_iff housed serves, ?_, obstructed_iff housed serves⟩
  intro many followed way data size
  have short : (pathOf base key).utf8ByteSize < FileSystem.pathLimit := by
    by_contra long
    exact followed ((overlong_iff housed serves).mpr (.inl (Nat.le_of_not_lt long)))
  exact run_put_of_many housed serves many short followed way data size

/-- A key of one byte more than a name has room for. -/
def longKey : Key := ⟨Array.replicate 131 0⟩

theorem size_longKey : longKey.size = 131 := Array.size_replicate

/-- A store was opened, and then asked to put a chunk with a key that is too long for the name of a file. -/
theorem endings_of_used_with_long_key :
    ∃ files later, Used ["s"] ["s"] files ∧
      (put "s" ⟨longKey, some #[7], 0⟩).run files =
        (.error (.chunkFileUncreated (pathOf "s" longKey ++ ".tmp")), later) ∧
      (has "s" longKey).run later = (.error (tooLong "s" longKey), later) ∧
      (get "s" ⟨#[]⟩).run later = (.error .directoryRead, later) := by
  have named : Path.names "s" = ["s"] := by decide +kernel
  obtain ⟨files, opens⟩ : ∃ files, ((openAt "s").run FileSystem.empty).2 = files := ⟨_, rfl⟩
  have opened : ((openAt "s").run FileSystem.empty).1 = .ok () := by decide +kernel
  have used : Used ["s"] ["s"] files :=
    .opened (.bare bare_empty) (by decide) (skirts_empty named) (Prod.ext opened opens)
  have vacant : ∀ taken ∈ (folder longKey).inits, taken = [] ∨
      files.entries[["s"] ++ taken]? = none := by
    rw [← opens]
    decide +kernel
  have directory : files.entries[["s"]]? = some .directory := by
    rw [← opens]
    decide +kernel
  have short : ¬ FileSystem.pathLimit ≤ (pathOf "s" longKey).utf8ByteSize := by
    have parts := Path.utf8ByteSize_child_le (directoryOf "s" longKey) (nameOf longKey)
    have before : (directoryOf "s" longKey).utf8ByteSize = 10 := by decide +kernel
    rw [before, utf8ByteSize_nameOf, size_longKey] at parts
    exact Nat.not_le_of_lt (Nat.lt_of_le_of_lt parts (by decide))
  obtain ⟨-, odd⟩ := endings_of_used files "s" longKey
  obtain ⟨overlong, left, -⟩ := odd used List.mem_cons_self
  have many : 130 < longKey.size := by
    rw [size_longKey]
    decide
  have followed : ¬ Overlong files "s" longKey := by
    intro lost
    obtain long | ⟨-, held⟩ := overlong.mp lost
    · exact short long
    · obtain never | none := vacant _ ((List.mem_inits _ _).mpr List.prefix_rfl)
      · exact absurd never (folder_ne_nil (by omega))
      · cases none.symm.trans held
  have way : ∀ taken number, taken <+: folder longKey →
      files.entries[["s"] ++ taken]? ≠ some (.file number) := by
    intro taken number leading held
    obtain rfl | none := vacant taken ((List.mem_inits _ _).mpr leading)
    · cases directory.symm.trans held
    · cases none.symm.trans held
  obtain ⟨later, failed, lost⟩ := left many followed way #[7] 0
  have after : Used ["s"] ["s"] later := by
    have put := used.put List.mem_cons_self ⟨longKey, some #[7], 0⟩
    rwa [failed] at put
  obtain ⟨ends, -⟩ := endings_of_used later "s" longKey
  obtain ⟨atBase, odd⟩ := endings_of_used later "s" ⟨#[]⟩
  obtain ⟨-, -, obstructed⟩ := odd after List.mem_cons_self
  exact ⟨files, later, used, failed, (ends.overlong lost).1,
    atBase.obstructed (obstructed.mpr ⟨by decide +kernel, .inl rfl⟩)⟩

end Disk

end ChunkTree
