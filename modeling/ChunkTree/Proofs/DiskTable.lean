import ChunkTree.Proofs.Ways

/-!
# The disk store as a table

What is below the base directory of a store shows a table of data by keys: for each key that is bound a
file at its place, and otherwise nothing but directories for such files (`Disk.Mirrors`).  Nothing else
is ever in the way of a chunk, so the store answers as the table says (`Disk.Mirrors.run_has`,
`Disk.Mirrors.run_get`), a put binds a key that was unbound (`Disk.Mirrors.run_put`), and clearing the
store unbinds them all (`Disk.Mirrors.run_clear`).  All of this goes for every store that is open on
the directory (`Disk.Serves`).
-/

namespace ChunkTree.Disk

open FileSystem (Inside Skirts KeepsDirectories Grown)

/-- Data by keys. -/
abbrev Table := Key → Option Bytes

/-- What is got for a key: the data that is bound to it, and as the size the number in its first eight
bytes, the lowest first. -/
def Table.answer (table : Table) (key : Key) : Except Fault (Option Chunk) :=
  match table key with
  | none => .ok none
  | some data =>
    if data.size < 8 then .error (.noSizeHeader data.size)
    else .ok (some ⟨key, some data, UInt64.ofNat (Bytes.ofLowDigits (data.extract 0 8).toList)⟩)

/-- Names of directories as they are made for chunk files: at most three, of two digits each. -/
structure Foldered (names : List String) : Prop where
  few : names.length ≤ 3
  short : ∀ name ∈ names, name.length = 2

variable {root : List String} {table : Table} {base : String} {files later : FileSystem} {key : Key}
  {data : Bytes}

theorem foldered_of_leading {taken : List String} (before : taken <+: folder key) : Foldered taken where
  few := by
    refine Nat.le_trans before.length_le ?_
    by_cases short : key.size ≤ 3
    · rw [folder_of_short short]
      exact Nat.zero_le 3
    · exact Nat.le_of_eq (length_folder (by omega))
  short name member := length_of_mem_folder (before.subset member)

/-- No file of a chunk, and none beside it, is where a directory for chunk files may be, but for those
of one byte. -/
theorem not_foldered_with (long : 1 < key.size) (suffix : String) :
    ¬ Foldered (folder key ++ [nameOf key ++ suffix]) := by
  intro foldered
  have length := length_nameOf key
  have last := foldered.short _ (List.mem_append_right _ (List.mem_singleton_self _))
  have few := foldered.few
  rw [String.length_append] at last
  rw [List.length_append, List.length_singleton] at few
  by_cases short : key.size ≤ 3
  · rw [if_pos short] at length
    omega
  · rw [length_folder (by omega)] at few
    omega

theorem not_foldered_place (long : 1 < key.size) : ¬ Foldered (place key) := by
  have apart := not_foldered_with long ""
  rwa [String.append_empty, ← place_of_filled (by omega)] at apart

theorem Fitting.not_foldered_place (fitting : Fitting key) : ¬ Foldered (place key) :=
  Disk.not_foldered_place fitting.long

theorem Fitting.not_foldered_beside (fitting : Fitting key) : ¬ Foldered (beside key) :=
  not_foldered_with fitting.long ".tmp"

/-- A store is open on this base, which leads to the directory and not through what is in it. -/
structure Serves (root : List String) (base : String) (files : FileSystem) : Prop where
  usable : Usable base
  skirts : Skirts root (files.startOf base) (Path.names base)
  leads : Leads base (some root) files

/-- The store goes on while the directories outside of it are there. -/
theorem Serves.of_outside (serves : Serves root base files) (here : later.here = files.here)
    (keeps : ∀ other, ¬ Inside root other → files.entries[other]? = some .directory →
      later.entries[other]? = some .directory) : Serves root base later := by
  have start : later.startOf base = files.startOf base := by
    rw [FileSystem.startOf, FileSystem.startOf, here]
  refine ⟨serves.usable, start ▸ serves.skirts, ?_⟩
  rw [Leads, start]
  exact FileSystem.walk_of_skirts serves.skirts keeps serves.leads

theorem Serves.of_keeps (serves : Serves root base files) (keeps : files.KeepsDirectories later) :
    Serves root base later :=
  serves.of_outside keeps.here fun other _ held => keeps.directories other held

/-- Directories were added: inside the directory of a store none but those for files. -/
structure Prepared (root : List String) (files later : FileSystem) : Prop where
  grown : ∃ bound, Grown bound files later
  outside : ∀ below, below ≠ [] → ¬ Foldered below →
    later.entries[root ++ below]? = files.entries[root ++ below]?

theorem Prepared.refl (sound : files.Sound) : Prepared root files files :=
  ⟨⟨0, .refl sound 0⟩, fun _ _ _ => rfl⟩

theorem Prepared.keepsDirectories (prepared : Prepared root files later) :
    files.KeepsDirectories later := by
  obtain ⟨⟨bound, grown⟩, -⟩ := prepared
  exact grown.keepsDirectories

/-- On the way to the file of a key there are directories for files. -/
theorem prepared_makeWay (sound : files.Sound) (directory : files.IsDirectory root) (key : Key) :
    Prepared root files (FileSystem.makeWay root (folder key) files).2 := by
  refine ⟨⟨_, (FileSystem.grown_makeWay sound directory (folder key)).1⟩, ?_⟩
  intro below some other
  rcases FileSystem.entries_makeWay root (folder key) files (root ++ below) with
    same | ⟨taken, before, -, step⟩
  · exact same
  · have plain := plain_folder key
    rw [FileSystem.reach_of_plain root fun name member =>
      ⟨(plain name (before.subset member)).1, (plain name (before.subset member)).2.1⟩] at step
    rw [List.append_cancel_left step] at other
    exact absurd (foldered_of_leading before) other

/-- What is below the directory of a store is the files of the keys that are bound, and directories
for files. -/
structure Mirrors (root : List String) (table : Table) (files : FileSystem) : Prop where
  sound : files.Sound
  apart : ¬ Inside root files.here
  rooted : ∀ number, files.entries[root]? ≠ some (.file number)
  fitting : ∀ key data, table key = some data → Fitting key
  held : ∀ key data, table key = some data → ∃ number,
    files.entries[root ++ place key]? = some (.file number) ∧ files.content number = data
  only : ∀ below entry, below ≠ [] → files.entries[root ++ below]? = some entry →
    entry = .directory ∧ Foldered below ∨ ∃ key data, table key = some data ∧ below = place key

namespace Mirrors

variable (mirrors : Mirrors root table files)
include mirrors

theorem vacant_place (fitting : Fitting key) (unbound : table key = none) :
    files.entries[root ++ place key]? = none := by
  by_contra there
  obtain ⟨entry, held⟩ := Option.ne_none_iff_exists'.mp there
  rcases mirrors.only _ entry fitting.place_ne_nil held with ⟨-, foldered⟩ | ⟨other, data, bound, same⟩
  · exact fitting.not_foldered_place foldered
  · rw [place_injective same, bound] at unbound
    cases unbound

theorem vacant_beside (fitting : Fitting key) : files.entries[root ++ beside key]? = none := by
  have some : beside key ≠ [] := List.append_ne_nil_of_right_ne_nil _ (List.cons_ne_nil _ _)
  by_contra there
  obtain ⟨entry, held⟩ := Option.ne_none_iff_exists'.mp there
  rcases mirrors.only _ entry some held with ⟨-, foldered⟩ | ⟨other, data, bound, same⟩
  · exact fitting.not_foldered_beside foldered
  · exact beside_ne_place key other same

/-- No file is in the way to that of a key. -/
theorem not_file_of_leading {taken : List String} (before : taken <+: folder key) (number : Nat) :
    files.entries[root ++ taken]? ≠ some (.file number) := by
  intro held
  by_cases none : taken = []
  · rw [none, List.append_nil] at held
    exact mirrors.rooted number held
  · rcases mirrors.only _ _ none held with ⟨never, -⟩ | ⟨other, data, bound, same⟩
    · cases never
    · have fitting := mirrors.fitting other data bound
      exact fitting.not_foldered_place (same ▸ foldered_of_leading before)

/-- Directories for files may be added, and directories outside. -/
theorem of_prepared (prepared : Prepared root files later) : Mirrors root table later := by
  obtain ⟨⟨bound, grown⟩, outside⟩ := prepared
  constructor
  · exact grown.sound
  · rw [grown.here]
    exact mirrors.apart
  · intro number held
    rcases grown.entries root with same | ⟨-, made, -⟩
    · exact mirrors.rooted number (same.symm.trans held)
    · rw [made] at held
      cases held
  · exact mirrors.fitting
  · intro key data bound
    obtain ⟨number, held, content⟩ := mirrors.held key data bound
    exact ⟨number, grown.kept held, (grown.content number).trans content⟩
  · intro below entry some held
    rcases grown.entries (root ++ below) with same | ⟨vacant, made, -⟩
    · exact mirrors.only below entry some (same.symm.trans held)
    · left
      rw [made] at held
      cases held
      by_contra other
      have same := outside below some fun foldered => other ⟨rfl, foldered⟩
      rw [made, vacant] at same
      cases same

/-- A key that was unbound is bound by a file at its place. -/
theorem of_placed (fitting : Fitting key) (unbound : table key = none) (sound : later.Sound)
    (here : later.here = files.here) {number : Nat}
    (entry : later.entries[root ++ place key]? = some (.file number))
    (content : later.content number = data)
    (others : ∀ other, other ≠ root ++ place key →
      later.entries[other]? = files.entries[other]?)
    (contents : ∀ (other : List String) (held : Nat), files.entries[other]? = some (.file held) →
      later.content held = files.content held) :
    Mirrors root (Function.update table key (some data)) later where
  sound := sound
  apart := by
    rw [here]
    exact mirrors.apart
  rooted := by
    intro held there
    rw [others root fun same => fitting.place_ne_nil (List.self_eq_append_right.mp same)] at there
    exact mirrors.rooted held there
  fitting := by
    intro other otherData bound
    by_cases same : other = key
    · exact same ▸ fitting
    · rw [Function.update_of_ne same] at bound
      exact mirrors.fitting other otherData bound
  held := by
    intro other otherData bound
    by_cases same : other = key
    · subst same
      rw [Function.update_self, Option.some.injEq] at bound
      exact ⟨number, entry, content.trans bound⟩
    · rw [Function.update_of_ne same] at bound
      obtain ⟨held, there, known⟩ := mirrors.held other otherData bound
      refine ⟨held, ?_, (contents _ held there).trans known⟩
      rw [others _ fun equal => same (place_injective (List.append_cancel_left equal))]
      exact there
  only := by
    intro below other some there
    by_cases new : below = place key
    · exact .inr ⟨key, data, Function.update_self .., new⟩
    · rw [others _ fun equal => new (List.append_cancel_left equal)] at there
      rcases mirrors.only below other some there with folder | ⟨old, oldData, bound, same⟩
      · exact .inl folder
      · have apart : old ≠ key := fun equal => new (equal ▸ same)
        refine .inr ⟨old, oldData, ?_, same⟩
        rw [Function.update_of_ne apart]
        exact bound

end Mirrors

section Open

/-- A store that was opened serves the directory, and all that was made for it is directories. -/
theorem serves_of_openAt (sound : files.Sound)
    (rooted : ∀ number, files.entries[root]? ≠ some (.file number)) (free : '\x00' ∉ base.toList)
    (skirts : Skirts root (files.startOf base) (Path.names base))
    (opened : (openAt base).run files = (.ok (), later)) :
    Serves root base later ∧ Prepared root files later := by
  obtain ⟨usable, -⟩ := leads_of_openAt sound free opened
  rcases openAt_cases opened with ⟨rfl, target, there⟩ | made
  · refine ⟨⟨usable, skirts, ?_⟩, .refl sound⟩
    rw [FileSystem.find?, usable.locate_eq] at there
    rcases led : later.walk (Path.endsInSlash base) (later.startOf base) (Path.names base) with
      reason | found
    · rw [led] at there
      cases reason <;> cases there
    have named := (FileSystem.namesOf_of_walk led).trans skirts.arrives
    rcases found with names | ⟨names, number⟩ | names
    · obtain rfl : names = root := named
      exact FileSystem.walk_true_of_directory led
    · obtain rfl : names = root := named
      have placed := FileSystem.placed_of_walk sound (sound.startOf base) led
      exact absurd placed (rooted number)
    · rw [led] at there
      cases there
  · obtain ⟨grown, led⟩ := FileSystem.grown_makeWay sound (sound.startOf base) (Path.names base)
    have after := made.later
    have whole := made.whole rfl
    rw [Fault.untilNul_of_free free] at after whole
    obtain ⟨there, leads⟩ := led whole
    obtain rfl : there = root := (FileSystem.namesOf_of_walk leads).trans skirts.arrives
    simp only at after
    have steps := FileSystem.entries_makeWay (files.startOf base) (Path.names base) files
    rw [← after] at grown leads steps
    have start := grown.keepsDirectories.startOf base
    refine ⟨⟨usable, start ▸ skirts, ?_⟩, ⟨_, grown⟩, ?_⟩
    · rw [Leads, start]
      exact leads
    · intro below some _
      rcases steps (there ++ below) with same | ⟨taken, before, -, step⟩
      · exact same
      · exact absurd ⟨below, some, step.symm⟩ (skirts.outside taken before)

/-- What is in the directory is as before when a store was opened on it. -/
theorem Mirrors.of_openAt (mirrors : Mirrors root table files) (free : '\x00' ∉ base.toList)
    (skirts : Skirts root (files.startOf base) (Path.names base))
    (opened : (openAt base).run files = (.ok (), later)) :
    Mirrors root table later ∧ Serves root base later ∧ files.KeepsDirectories later := by
  obtain ⟨serves, prepared⟩ := serves_of_openAt mirrors.sound mirrors.rooted free skirts opened
  exact ⟨mirrors.of_prepared prepared, serves, prepared.keepsDirectories⟩

end Open

section Answers

variable (serves : Serves root base files)
include serves

theorem Serves.isDirectory (sound : files.Sound) : files.IsDirectory root :=
  FileSystem.placed_of_walk sound (sound.startOf base) serves.leads

theorem Serves.locate_of_long (long : FileSystem.pathLimit ≤ (pathOf base key).utf8ByteSize) :
    files.locate (pathOf base key) = .error .nameTooLong := by
  rw [files.locate_of_behind (behind_pathOf serves.usable.filled serves.usable.free key), if_pos long]

theorem Serves.locate_of_short (key : Key)
    (short : (pathOf base key).utf8ByteSize < FileSystem.pathLimit) :
    files.locate (pathOf base key) =
      files.walk (Path.endsInSlash (pathOf base key)) root (place key) := by
  rw [files.locate_of_behind (behind_pathOf serves.usable.filled serves.usable.free key),
    if_neg (Nat.not_le_of_lt short), FileSystem.walk_append serves.leads]

theorem Serves.locate_pathOf (fitting : Fitting key)
    (short : (pathOf base key).utf8ByteSize < FileSystem.pathLimit) :
    files.locate (pathOf base key) = files.walk false root (place key) := by
  rw [serves.locate_of_short key short, fitting.endsInSlash_pathOf]

variable (mirrors : Mirrors root table files) (fitting : Fitting key)
include mirrors fitting

/-- The path of a key that is bound leads to the file at its place. -/
theorem Mirrors.locate_of_bound (short : (pathOf base key).utf8ByteSize < FileSystem.pathLimit)
    (bound : table key = some data) : ∃ number,
      files.locate (pathOf base key) = .ok (.file (root ++ place key) number) ∧
        files.content number = data := by
  obtain ⟨number, held, content⟩ := mirrors.held key data bound
  refine ⟨number, ?_, content⟩
  rw [serves.locate_pathOf fitting short,
    FileSystem.walk_of_entry mirrors.sound fitting.plain_place held fitting.place_ne_nil]
  rfl

/-- The path of a key that is unbound leads nowhere. -/
theorem Mirrors.found_of_unbound (short : (pathOf base key).utf8ByteSize < FileSystem.pathLimit)
    (unbound : table key = none) : FileSystem.found (files.locate (pathOf base key)) = .ok none := by
  rw [serves.locate_pathOf fitting short]
  exact FileSystem.found_of_no_entry fitting.plain_place (mirrors.vacant_place fitting unbound)
    fitting.place_ne_nil

/-- The fault of following a path that is too long. -/
def tooLong (base : String) (key : Key) : Fault :=
  .fileSystem "status" .nameTooLong (pathOf base key)

/-- The store has the keys that are bound. -/
theorem Mirrors.run_has : (has base key).run files =
    (if (pathOf base key).utf8ByteSize < FileSystem.pathLimit then .ok (table key).isSome
      else .error (tooLong base key), files) := by
  rw [has, FileSystem.run_present, FileSystem.find?_eq_found]
  by_cases short : (pathOf base key).utf8ByteSize < FileSystem.pathLimit
  · rw [if_pos short]
    cases bound : table key with
    | none =>
        rw [mirrors.found_of_unbound serves fitting short bound]
        rfl
    | some data =>
        obtain ⟨number, led, -⟩ := mirrors.locate_of_bound serves fitting short bound
        rw [led]
        rfl
  · rw [if_neg short, serves.locate_of_long (Nat.le_of_not_lt short)]
    rfl

/-- The store gets what is bound, with the size that the data states. -/
theorem Mirrors.run_get : (get base key).run files =
    (if (pathOf base key).utf8ByteSize < FileSystem.pathLimit then table.answer key
      else .error (tooLong base key), files) := by
  rw [Disk.run_get, Table.answer]
  by_cases short : (pathOf base key).utf8ByteSize < FileSystem.pathLimit
  · rw [if_pos short]
    cases bound : table key with
    | none =>
        have nowhere := mirrors.found_of_unbound serves fitting short bound
        rcases led : files.locate (pathOf base key) with reason | (names | ⟨names, number⟩ | names)
        · rw [led] at nowhere
          cases reason with
          | missing => rfl
          | notDirectory => rfl
          | _ => cases nowhere
        · rw [led] at nowhere
          cases nowhere
        · rw [led] at nowhere
          cases nowhere
        · rfl
    | some data =>
        obtain ⟨number, led, rfl⟩ := mirrors.locate_of_bound serves fitting short bound
        by_cases headless : (files.content number).size < 8
        · have decoded : Header.decode (files.content number) = .error _ := if_pos headless
          simp only [led, answer, decoded, if_pos headless]
          rfl
        · have decoded : Header.decode (files.content number) = .ok _ := if_neg headless
          simp only [led, answer, decoded, if_neg headless]
          rfl
  · rw [if_neg short, serves.locate_of_long (Nat.le_of_not_lt short)]
    rfl

end Answers

section Put

/-- The path of a key leaves room for that of the file through which the file is written. -/
def Fits (base : String) (key : Key) : Prop :=
  (pathOf base key).utf8ByteSize + 4 < FileSystem.pathLimit

instance (base : String) (key : Key) : Decidable (Fits base key) :=
  inferInstanceAs (Decidable ((pathOf base key).utf8ByteSize + 4 < FileSystem.pathLimit))

theorem Fits.short (fits : Fits base key) : (pathOf base key).utf8ByteSize < FileSystem.pathLimit :=
  Nat.lt_of_le_of_lt (Nat.le_add_right _ 4) fits

theorem utf8ByteSize_beside (base : String) (key : Key) :
    (pathOf base key ++ ".tmp").utf8ByteSize = (pathOf base key).utf8ByteSize + 4 := by
  rw [String.utf8ByteSize_append]
  rfl

theorem endsInSlash_beside (base : String) (key : Key) :
    Path.endsInSlash (pathOf base key ++ ".tmp") = false := by
  have last : ".tmp".toList.getLast? = some 'p' := by decide
  rw [Path.endsInSlash, String.toList_append, List.getLast?_append, last]
  rfl

/-- Everything is as it has to be for a file to be written. -/
structure Ready (root : List String) (key : Key) (files : FileSystem) : Prop where
  sound : files.Sound
  folder : files.IsDirectory (root ++ folder key)
  place : files.entries[root ++ place key]? = none
  beside : files.entries[root ++ beside key]? = none

theorem Mirrors.ready (mirrors : Mirrors root table files) (fitting : Fitting key)
    (unbound : table key = none) (directory : files.IsDirectory (root ++ folder key)) :
    Ready root key files :=
  ⟨mirrors.sound, directory, mirrors.vacant_place fitting unbound, mirrors.vacant_beside fitting⟩

/-- The directory for the file of a key can be made in the base directory, where no file is in the
way. -/
theorem makeWay_folder (sound : files.Sound) (directory : files.IsDirectory root) (key : Key)
    (way : ∀ taken number, taken <+: folder key →
      files.entries[root ++ taken]? ≠ some (.file number)) : ∃ later count,
      FileSystem.makeWay root (folder key) files = (.ok (), later) ∧
      files.countMissing root (folder key) = .ok count ∧ count ≤ FileSystem.makeLimit ∧
      later.IsDirectory (root ++ folder key) := by
  have plain := plain_folder key
  have undotted : ∀ name ∈ folder key, name ≠ "." ∧ name ≠ ".." := fun name member =>
    ⟨(plain name member).1, (plain name member).2.1⟩
  have free : ∀ name ∈ folder key, Fault.untilNul name = name := fun name member =>
    Fault.untilNul_of_free (isDigits_of_mem_folder member).nul_not_mem
  obtain ⟨made, count, counted, few⟩ := FileSystem.makeWay_of_open plain free way
  obtain ⟨grown, led⟩ := FileSystem.grown_makeWay sound directory (folder key)
  obtain ⟨there, leads⟩ := led made
  have named : there = root ++ folder key :=
    FileSystem.names_of_walk undotted leads
  have whole := (foldered_of_leading (List.prefix_rfl : folder key <+: folder key)).few
  refine ⟨_, count, Prod.ext made rfl, counted, Nat.le_trans few (Nat.le_trans whole (by decide)), ?_⟩
  rw [← named]
  exact FileSystem.placed_of_walk grown.sound (grown.keepsDirectories.isDirectory directory) leads

/-- For a short key there is nothing to be made: its file stands in the base directory. -/
theorem Serves.run_ensureDirectory_of_short (serves : Serves root base files) (few : key.size ≤ 3) :
    (FileSystem.ensureDirectory (Path.trimmed (directoryOf base key))).run files = (.ok (), files) := by
  have usable := serves.usable
  obtain ⟨behind, small⟩ := Path.behind_trimmed usable.filled usable.free
  have flat : directoryOf base key = base := by
    simp only [directoryOf, length_hex, if_pos (by omega : 2 * key.size ≤ 6)]
  have there : files.find? (Path.trimmed (directoryOf base key)) = .ok (some (.directory root)) := by
    rw [flat, FileSystem.find?_eq_found, files.locate_of_behind behind,
      if_neg (Nat.not_le_of_lt (Nat.lt_of_le_of_lt small usable.short)),
      FileSystem.walk_append serves.leads]
    rfl
  exact FileSystem.run_ensureDirectory_of_found there

/-- The path of the directory for the file of a key leads where its names behind the base do. -/
theorem Serves.locate_directoryOf (serves : Serves root base files) (key : Key)
    (short : (pathOf base key).utf8ByteSize < FileSystem.pathLimit) :
    files.locate (directoryOf base key) =
      files.walk (Path.endsInSlash (directoryOf base key)) root (folder key) := by
  have within : (directoryOf base key).utf8ByteSize < FileSystem.pathLimit :=
    Nat.lt_of_le_of_lt (Path.utf8ByteSize_le_child _ _) short
  rw [files.locate_of_behind (behind_directoryOf serves.usable.filled serves.usable.free key),
    if_neg (Nat.not_le_of_lt within), FileSystem.walk_append serves.leads]

/-- The way to the directory for the file of a key is made behind the base. -/
theorem Serves.makeWay_directoryOf (serves : Serves root base files) (key : Key) :
    files.countMissing (files.startOf (directoryOf base key)) (Path.names (directoryOf base key)) =
        files.countMissing root (folder key) ∧
      FileSystem.makeWay (files.startOf (directoryOf base key)) (Path.names (directoryOf base key))
        files = FileSystem.makeWay root (folder key) files := by
  have usable := serves.usable
  have behind := behind_directoryOf usable.filled usable.free key
  rw [behind.names_eq, files.startOf_of_behind behind]
  exact ⟨FileSystem.countMissing_append (fun name member =>
    (Path.of_mem_names member).2 usable.free) serves.leads _, FileSystem.makeWay_append serves.leads _⟩

/-- The directory for the file of a key is made if it is missing and no file is in the way. -/
theorem Serves.run_ensureDirectory (serves : Serves root base files) (sound : files.Sound) (key : Key)
    (short : (pathOf base key).utf8ByteSize < FileSystem.pathLimit)
    (way : ∀ taken number, taken <+: folder key →
      files.entries[root ++ taken]? ≠ some (.file number)) :
    ∃ later, (FileSystem.ensureDirectory (Path.trimmed (directoryOf base key))).run files =
        (.ok (), later) ∧
      Prepared root files later ∧ later.IsDirectory (root ++ folder key) := by
  have directory := serves.isDirectory sound
  by_cases few : key.size ≤ 3
  · refine ⟨files, serves.run_ensureDirectory_of_short few, .refl sound, ?_⟩
    rw [folder_of_short few, List.append_nil]
    exact directory
  have behind := behind_directoryOf serves.usable.filled serves.usable.free key
  have some : folder key ≠ [] := folder_ne_nil (by omega)
  have located := serves.locate_directoryOf key short
  rw [trimmed_directoryOf (by omega)]
  rcases held : files.entries[root ++ folder key]? with _ | _ | number
  · have nowhere : files.find? (directoryOf base key) = .ok none := by
      rw [FileSystem.find?_eq_found, located]
      exact FileSystem.found_of_no_entry (plain_folder key) held some
    have named : Path.names (directoryOf base key) ≠ [] := by
      rw [behind.names_eq]
      exact List.append_ne_nil_of_right_ne_nil _ some
    obtain ⟨later, count, made, counted, bound, folder⟩ := makeWay_folder sound directory key way
    obtain ⟨counts, makes⟩ := serves.makeWay_directoryOf key
    have prepared := prepared_makeWay sound directory key
    rw [made] at prepared
    exact ⟨later, FileSystem.run_ensureDirectory_of_missing behind.free named nowhere
      (counts.trans counted) bound (makes.trans made), prepared, folder⟩
  · have led := FileSystem.walk_of_entry sound (plain_folder key) held some
    have there : files.find? (directoryOf base key) = .ok (.some (.directory (root ++ folder key))) := by
      rw [FileSystem.find?_eq_found, located,
        FileSystem.walk_of_walk_true (FileSystem.walk_true_of_directory led)]
      rfl
    exact ⟨files, FileSystem.run_ensureDirectory_of_found there, .refl sound, .inr held⟩
  · exact absurd held (way _ number List.prefix_rfl)

theorem Mirrors.run_ensureDirectory (mirrors : Mirrors root table files)
    (serves : Serves root base files) (key : Key)
    (short : (pathOf base key).utf8ByteSize < FileSystem.pathLimit) :
    ∃ later, (FileSystem.ensureDirectory (Path.trimmed (directoryOf base key))).run files =
        (.ok (), later) ∧
      Mirrors root table later ∧ files.KeepsDirectories later ∧
      later.IsDirectory (root ++ folder key) := by
  obtain ⟨later, ran, prepared, folder⟩ := serves.run_ensureDirectory mirrors.sound key short
    fun taken number before => mirrors.not_file_of_leading before number
  exact ⟨later, ran, mirrors.of_prepared prepared, prepared.keepsDirectories, folder⟩

section Write

variable (serves : Serves root base files) (fitting : Fitting key)

/-- Nothing is written if the path of the file through which another is written leads nowhere. -/
theorem run_writeFile_of_error {reason : PathFault}
    (led : files.locate (pathOf base key ++ ".tmp") = .error reason) (data : Bytes) :
    (writeFile base key data).run files =
      (.error (.chunkFileUncreated (pathOf base key ++ ".tmp")), files) := by
  unfold writeFile Action.of Action.run FileSystem.create FileSystem.openFor
  simp only [led, bind, Except.bind]

include serves

/-- The file through which another is written cannot be opened if its path is too long. -/
theorem run_writeFile_of_long (long : ¬ Fits base key) (data : Bytes) :
    (writeFile base key data).run files =
      (.error (.chunkFileUncreated (pathOf base key ++ ".tmp")), files) := by
  apply run_writeFile_of_error
  rw [files.locate_of_behind (behind_beside serves.usable.filled serves.usable.free key), if_pos]
  rw [utf8ByteSize_beside]
  exact Nat.le_of_not_lt long

include fitting

/-- The file through which another is written can be opened. -/
theorem create_of_ready (ready : Ready root key files) (fits : Fits base key) : ∃ opened,
    files.create (pathOf base key ++ ".tmp") = .ok (files.next, opened) ∧
      files.Opens opened (pathOf base key ++ ".tmp") (root ++ beside key) files.next := by
  have behind := behind_beside serves.usable.filled serves.usable.free key
  have led : files.locate (pathOf base key ++ ".tmp") = .ok (.vacant (root ++ beside key)) := by
    rw [files.locate_of_behind behind, utf8ByteSize_beside, if_neg (Nat.not_le_of_lt fits),
      FileSystem.walk_append serves.leads]
    exact FileSystem.walk_of_vacant ready.sound fitting.plain_beside ready.folder ready.beside _
  have made : ∃ opened, files.create (pathOf base key ++ ".tmp") = .ok (files.next, opened) := by
    unfold FileSystem.create FileSystem.openFor
    simp only [led, bind, Except.bind, Fault.untilNul_of_free behind.free, endsInSlash_beside,
      Bool.false_eq_true, ↓reduceIte]
    exact ⟨_, rfl⟩
  obtain ⟨opened, created⟩ := made
  obtain ⟨names, opens⟩ := FileSystem.opens_of_create ready.sound created
  obtain rfl : names = root ++ beside key := by
    rcases opens.led with other | other
    · rw [led] at other
      cases other
    · rw [led] at other
      exact (Target.vacant.inj (Except.ok.inj other)).symm
  exact ⟨opened, created, opens⟩

/-- The file of a chunk is written where everything is as it has to be, and nothing else changes. -/
theorem run_writeFile_of_ready (ready : Ready root key files) (fits : Fits base key) (data : Bytes) :
    ∃ later, (writeFile base key data).run files = (.ok (), later) ∧ later.Sound ∧
      later.here = files.here ∧
      later.entries[root ++ place key]? = some (.file files.next) ∧
      later.content files.next = data ∧
      (∀ other, other ≠ root ++ place key → later.entries[other]? = files.entries[other]?) ∧
      ∀ (other : List String) (held : Nat), files.entries[other]? = some (.file held) →
        later.content held = files.content held := by
  obtain ⟨opened, created, opens⟩ := create_of_ready serves fitting ready fits
  have rewrites := opened.rewrites_setContent files.next data
  have others : ∀ other, other ≠ root ++ beside key →
      (opened.setContent files.next data).entries[other]? = files.entries[other]? := by
    intro other apart
    rw [rewrites.entries, opens.others other apart]
  have keeps : files.KeepsDirectories (opened.setContent files.next data) := by
    refine ⟨opens.here, fun other held => ?_⟩
    rw [others other fun same => by rw [same, ready.beside] at held; cases held]
    exact held
  have sound := rewrites.sound opens.sound
  have written : (opened.setContent files.next data).locate (pathOf base key ++ ".tmp") =
      .ok (.file (root ++ beside key) files.next) := (rewrites.locate_eq _).trans opens.leads
  have apart : root ++ place key ≠ root ++ beside key := fun same =>
    beside_ne_place key key (List.append_cancel_left same).symm
  have vacant : (opened.setContent files.next data).entries[root ++ place key]? = none :=
    (others _ apart).trans ready.place
  have target : (opened.setContent files.next data).locate (pathOf base key) =
      .ok (.vacant (root ++ place key)) := by
    have plain := fitting.plain_place
    rw [(serves.of_keeps keeps).locate_pathOf fitting fits.short]
    rw [fitting.place_eq] at plain vacant ⊢
    exact FileSystem.walk_of_vacant sound plain (keeps.isDirectory ready.folder) vacant false
  have free := (behind_pathOf serves.usable.filled serves.usable.free key).free
  obtain ⟨renamed, after⟩ := FileSystem.moved_of_rename sound written target (by
    rw [Fault.untilNul_of_free free, fitting.endsInSlash_pathOf])
  refine ⟨_, ?_, after, opens.here, ?_, ?_, ?_, ?_⟩
  · unfold writeFile move Action.of Action.run
    simp only [created, renamed]
  · rw [FileSystem.getElem?_insert_entry, if_pos rfl]
  · exact FileSystem.content_setContent opened files.next data
  · intro other elsewhere
    rw [FileSystem.getElem?_insert_entry, if_neg elsewhere.symm, FileSystem.getElem?_erase_entry]
    by_cases same : root ++ beside key = other
    · rw [if_pos same, ← same, ready.beside]
    · rw [if_neg same, others other (Ne.symm same)]
  · intro other held known
    have older := Nat.ne_of_lt (ready.sound.fresh other held known)
    exact (rewrites.contents held older).trans (opens.contents held older)

end Write

/-- What a put makes of a table: a key that is unbound is bound to the data, if there is room for the
path of the file. -/
def Table.put (table : Table) (base : String) (chunk : Chunk) : Table :=
  match chunk.data with
  | none => table
  | some data =>
    if table chunk.key = none ∧ Fits base chunk.key then Function.update table chunk.key (some data)
    else table

/-- How a put ends. -/
def Table.putAnswer (table : Table) (base : String) (chunk : Chunk) : Except Fault Unit :=
  if chunk.isRequest then .error (.requestRefused .disk)
  else if FileSystem.pathLimit ≤ (pathOf base chunk.key).utf8ByteSize then
    .error (tooLong base chunk.key)
  else if table chunk.key = none ∧ ¬ Fits base chunk.key then
    .error (.chunkFileUncreated (pathOf base chunk.key ++ ".tmp"))
  else .ok ()

/-- A put binds the key of its chunk; a request is refused, and what is bound stays. -/
theorem Mirrors.run_put (mirrors : Mirrors root table files) (serves : Serves root base files)
    {chunk : Chunk} (fitting : Fitting chunk.key) : ∃ later,
      (put base chunk).run files = (table.putAnswer base chunk, later) ∧
      Mirrors root (table.put base chunk) later ∧ files.KeepsDirectories later ∧
      (chunk.isRequest ∨ table chunk.key ≠ none → later = files) := by
  obtain ⟨key, data?, size⟩ := chunk
  have unmoved : files.KeepsDirectories files := ⟨rfl, fun _ => id⟩
  cases data? with
  | none => exact ⟨files, rfl, mirrors, unmoved, fun _ => rfl⟩
  | some data =>
      have filled : ¬ (Chunk.mk key (some data) size).isRequest := Bool.false_ne_true
      simp only [Table.put, Table.putAnswer, if_neg filled]
      rw [Disk.run_put, FileSystem.find?_eq_found]
      by_cases long : FileSystem.pathLimit ≤ (pathOf base key).utf8ByteSize
      · have cramped : ¬ Fits base key := fun fits => absurd fits.short (Nat.not_lt_of_le long)
        rw [if_pos long, if_neg fun new => cramped new.2, serves.locate_of_long long]
        exact ⟨files, rfl, mirrors, unmoved, fun _ => rfl⟩
      have short := Nat.lt_of_not_le long
      rw [if_neg long]
      cases bound : table key with
      | some held =>
          obtain ⟨number, led, -⟩ := mirrors.locate_of_bound serves fitting short bound
          rw [if_neg fun new => Option.some_ne_none held new.1,
            if_neg fun new => Option.some_ne_none held new.1, led]
          exact ⟨files, rfl, mirrors, unmoved, fun _ => rfl⟩
      | none =>
          obtain ⟨after, ensured, still, keeps, folder⟩ := mirrors.run_ensureDirectory serves key short
          have there := serves.of_keeps keeps
          have ready := still.ready fitting bound folder
          have new : ¬ ((Chunk.mk key (some data) size).isRequest ∨ (none : Option Bytes) ≠ none) :=
            fun old => old.elim filled fun bound => bound rfl
          rw [mirrors.found_of_unbound serves fitting short bound, ensured]
          by_cases fits : Fits base key
          · obtain ⟨later, written, sound, here, entry, content, others, contents⟩ :=
              run_writeFile_of_ready there fitting ready fits data
            have mirrored := still.of_placed fitting bound sound here entry content others contents
            rw [if_neg fun cramped => cramped.2 fits, if_pos ⟨rfl, fits⟩]
            refine ⟨later, written, mirrored, ⟨here.trans keeps.here, fun other held => ?_⟩,
              fun old => absurd old new⟩
            have before := keeps.directories other held
            rw [others other fun same => by rw [same, ready.place] at before; cases before]
            exact before
          · rw [if_pos ⟨rfl, fits⟩, if_neg fun room => fits room.2]
            exact ⟨after, run_writeFile_of_long there fits data, still, keeps,
              fun old => absurd old new⟩

end Put

section Clear

/-- An emptied directory shows an empty table. -/
theorem Mirrors.emptied (mirrors : Mirrors root table files) :
    Mirrors root (fun _ => none) (files.emptied root) where
  sound := mirrors.sound.emptied mirrors.apart
  apart := mirrors.apart
  rooted := by
    intro number held
    rw [files.getElem?_emptied.2 fun inside => (FileSystem.inside_iff.mp inside).1 rfl] at held
    exact mirrors.rooted number held
  fitting := nofun
  held := nofun
  only := by
    intro below entry some held
    rw [files.getElem?_emptied.1 ⟨below, some, rfl⟩] at held
    cases held

/-- Emptying the directory takes no store away from it. -/
theorem Serves.emptied (serves : Serves root base files) : Serves root base (files.emptied root) :=
  serves.of_outside rfl fun _ outside held => (files.getElem?_emptied.2 outside).trans held

/-- How clearing a store ends: a directory is not removed by a path that ends in dots. -/
def clearAnswer (base : String) : Except Fault Unit :=
  match (Path.names base).getLast? with
  | none => .error (.fileSystem "cannot remove" .invalid base)
  | some last =>
    if last = "." then .error (.fileSystem "cannot remove" .invalid base)
    else if last = ".." then .error (.fileSystem "cannot remove" .notEmpty base)
    else .ok ()

theorem clearAnswer_cases (base : String) : (∃ fault, clearAnswer base = .error fault) ∨
    clearAnswer base = .ok () ∧
      ∃ last, (Path.names base).getLast? = some last ∧ last ≠ "." ∧ last ≠ ".." := by
  rw [clearAnswer]
  rcases (Path.names base).getLast? with _ | last
  · exact .inl ⟨_, rfl⟩
  · by_cases single : last = "."
    · exact .inl ⟨_, if_pos single⟩
    · by_cases double : last = ".."
      · exact .inl ⟨_, (if_neg single).trans (if_pos double)⟩
      · exact .inr ⟨(if_neg single).trans (if_neg double), last, rfl, single, double⟩

/-- A base directory that was removed is made again. -/
theorem Serves.remade (serves : Serves root base files) {last : String}
    (ends : (Path.names base).getLast? = some last) (single : last ≠ ".") (double : last ≠ "..") :
    (FileSystem.ensureDirectory base).run (files.without root) = (.ok (), files) := by
  have usable := serves.usable
  have start : (files.without root).startOf base = files.startOf base := rfl
  have named : Path.names base ≠ [] := by
    intro none
    rw [none] at ends
    cases ends
  obtain ⟨nowhere, made, before, name, rest, split, one, two, back, counted⟩ :=
    FileSystem.makeWay_erased serves.leads ends single double fun name member =>
      (Path.of_mem_names member).2 usable.free
  refine FileSystem.run_ensureDirectory_of_missing usable.free named ?_ (start ▸ counted)
    (FileSystem.undotted_le_makeLimit usable.short split one two back) (start ▸ made)
  rw [FileSystem.find?_eq_found, usable.locate_eq, start]
  exact nowhere _

/-- The directory of a store goes away once it is empty, unless its path ends in dots. -/
theorem Serves.run_remove (serves : Serves root base files) :
    (FileSystem.remove base).run files = match clearAnswer base with
      | .ok () => (.ok 1, files.without root)
      | .error fault => (.error fault, files) := by
  have led := serves.usable.locate_of_leads serves.leads
  have whole := Fault.untilNul_of_free serves.usable.free
  unfold FileSystem.remove Action.of Action.run clearAnswer
  simp only [led, whole]
  rcases (Path.names base).getLast? with _ | last
  · rfl
  · by_cases single : last = "."
    · rw [single]
      rfl
    · by_cases double : last = ".."
      · rw [double]
        rfl
      · simp only [if_neg single, if_neg double]
        rfl

/-- Clearing a store empties its directory. -/
theorem Serves.run_clear (serves : Serves root base files) :
    (clear base).run files = (clearAnswer base, files.emptied root) := by
  have led := serves.usable.locate_of_leads serves.leads
  have emptied : (FileSystem.removeAll base).run files =
      match clearAnswer base with
      | .ok () => (.ok (files.entries.size - (files.emptied root).entries.size + 1),
          (files.emptied root).without root)
      | .error fault => (.error fault, files.emptied root) := by
    rw [FileSystem.removeAll, Action.run_bind, Action.run_state]
    simp only [led]
    rw [Action.run_bind, Action.run_update]
    change (FileSystem.remove base >>= _).run (files.emptied root) = _
    rw [Action.run_bind, serves.emptied.run_remove]
    rcases clearAnswer base with fault | _
    · rfl
    · rfl
  rw [clear, Action.run_bind, emptied]
  rcases clearAnswer_cases base with ⟨fault, refused⟩ | ⟨allowed, last, ends, single, double⟩
  · rw [refused]
  · rw [allowed]
    exact serves.emptied.remade ends single double

end Clear

end ChunkTree.Disk
