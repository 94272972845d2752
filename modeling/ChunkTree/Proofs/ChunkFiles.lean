import ChunkTree.Proofs.ChunkPlaces
import ChunkTree.Proofs.FileChanges
import ChunkTree.Proofs.Traversal

/-!
# Writing chunk files

Writing the file of a chunk puts its data at its place, if all goes well, and in any case leaves what
is at the places of other keys, and every other file but the one beside the place
(`Disk.writes_writeFile`, `Disk.writes_writeFileUnder`).  So a store on disk in which whatever is at the
place of a chunk is a file with its data stays so (`Disk.Truthful`), keeps what it has, and has a chunk
from the moment on when a put of it succeeds (`Disk.follows_put`); but where room ends, the loss has to
be noticed (`Disk.Noticed`).
-/

namespace ChunkTree.Disk

open FileSystem (KeepsDirectories Opens Grown)

/-- At the places of keys of so many bytes nothing is new, but for the keys that are changed, and all
files are as they were, but for those that are loose. -/
structure Leaves (size : Nat) (root : List String) (changed : Key → Prop)
    (loose : List String → Prop) (files later : FileSystem) : Prop where
  sound : later.Sound
  keeps : files.KeepsDirectories later
  tight : ∀ key, Lasting size key → ¬ loose (root ++ place key)
  vacant : ∀ key, Lasting size key → ¬ changed key → files.entries[root ++ place key]? = none →
    later.entries[root ++ place key]? = none
  kept : ∀ names number, ¬ loose names → files.entries[names]? = some (.file number) →
    later.entries[names]? = some (.file number) ∧ later.content number = files.content number

variable {size : Nat} {root : List String} {changed more : Key → Prop} {loose : List String → Prop}
  {files later last : FileSystem}

theorem Leaves.refl (sound : files.Sound)
    (tight : ∀ key, Lasting size key → ¬ loose (root ++ place key)) :
    Leaves size root changed loose files files :=
  ⟨sound, ⟨rfl, fun _ held => held⟩, tight, fun _ _ _ none => none, fun _ _ _ held => ⟨held, rfl⟩⟩

theorem Leaves.trans (first : Leaves size root changed loose files later)
    (second : Leaves size root changed loose later last) :
    Leaves size root changed loose files last where
  sound := second.sound
  keeps := ⟨second.keeps.here.trans first.keeps.here, fun names held =>
    second.keeps.directories names (first.keeps.directories names held)⟩
  tight := first.tight
  vacant key lasting same none := second.vacant key lasting same (first.vacant key lasting same none)
  kept := by
    intro names number fast held
    obtain ⟨between, content⟩ := first.kept names number fast held
    obtain ⟨held, same⟩ := second.kept names number fast between
    exact ⟨held, same.trans content⟩

/-- What changes no place may as well be said to change some. -/
theorem Leaves.mono (leaves : Leaves size root changed loose files later)
    (sub : ∀ key, changed key → more key) : Leaves size root more loose files later :=
  { leaves with
    vacant := fun key lasting same => leaves.vacant key lasting fun new => same (sub key new) }

/-- What was at the place of a key is there. -/
theorem Leaves.entry_eq (leaves : Leaves size root changed loose files later) {key : Key}
    (lasting : Lasting size key) (same : ¬ changed key) :
    later.entries[root ++ place key]? = files.entries[root ++ place key]? := by
  cases held : files.entries[root ++ place key]? with
  | none => exact leaves.vacant key lasting same held
  | some entry => cases entry with
    | directory => exact leaves.keeps.directories _ held
    | file number => exact (leaves.kept _ number (leaves.tight key lasting) held).1

/-- Directories above the places are not at the places. -/
theorem leaves_of_grown (long : 3 < size)
    (tight : ∀ key, Lasting size key → ¬ loose (root ++ place key))
    (grown : Grown (root.length + 3) files later) : Leaves size root changed loose files later where
  sound := grown.sound
  keeps := grown.keepsDirectories
  tight := tight
  vacant := by
    intro key lasting _ none
    rcases grown.entries (root ++ place key) with same | ⟨-, -, short⟩
    · rw [same, none]
    · rw [List.length_append, place_of_filled lasting.filled, List.length_append,
        length_folder (lasting.same.symm ▸ long), List.length_singleton] at short
      omega
  kept _ number _ held := ⟨grown.kept held, grown.content number⟩

section Elsewhere

variable {names : List String} {number : Nat}
  (apart : ∀ key, Lasting size key → root ++ place key ≠ names)
include apart

/-- A file that is opened somewhere else is at no place. -/
theorem leaves_of_opens {path : String} (opens : Opens files later path names number) :
    Leaves size root changed (· = names) files later where
  sound := opens.sound
  keeps := by
    refine ⟨opens.here, fun other held => ?_⟩
    by_cases same : other = names
    · subst same
      have entry := opens.kept (by rw [held]; exact Option.some_ne_none _)
      rw [held] at entry
      cases entry
    · rw [opens.others other same, held]
  tight := apart
  vacant key lasting _ none := (opens.others _ (apart key lasting)).trans none
  kept := by
    intro other held fast entry
    have still := (opens.others other fast).trans entry
    refine ⟨still, opens.contents held ?_⟩
    rintro rfl
    exact fast (opens.sound.unique other names held still opens.entry)

/-- Writing to a file that is at no place. -/
theorem leaves_of_rewrites (sound : files.Sound) (rewrites : files.Rewrites number later)
    (entry : files.entries[names]? = some (.file number)) :
    Leaves size root changed (· = names) files later where
  sound := rewrites.sound sound
  keeps := ⟨rewrites.here, fun _ held => by rw [rewrites.entries, held]⟩
  tight := apart
  vacant _ _ _ none := by rw [rewrites.entries, none]
  kept := by
    intro other held fast found
    refine ⟨by rw [rewrites.entries, found], rewrites.contents held ?_⟩
    rintro rfl
    exact fast (sound.unique other names held found entry)

/-- Taking the name from a file that is at no place. -/
theorem leaves_erase (sound : files.Sound) (entry : files.entries[names]? = some (.file number)) :
    Leaves size root changed (· = names) files { files with entries := files.entries.erase names } where
  sound := sound.erase entry
  keeps := by
    refine ⟨rfl, fun other held => ?_⟩
    rw [FileSystem.getElem?_erase_entry, if_neg]
    · exact held
    · rintro rfl
      rw [entry] at held
      cases held
  tight := apart
  vacant key lasting _ none := by
    rw [FileSystem.getElem?_erase_entry, if_neg (apart key lasting).symm, none]
  kept other held fast found :=
    ⟨by rw [FileSystem.getElem?_erase_entry, if_neg (Ne.symm fast), found], rfl⟩

/-- A file that is at no place is moved to the place of a key, where nothing was. -/
theorem leaves_moved {key : Key} (entry : files.entries[names]? = some (.file number))
    (vacant : files.entries[root ++ place key]? = none)
    (sound : FileSystem.Sound { files with
      entries := (files.entries.erase names).insert (root ++ place key) (.file number) }) :
    Leaves size root (· = key) (· = names) files { files with
      entries := (files.entries.erase names).insert (root ++ place key) (.file number) } where
  sound := sound
  keeps := by
    refine ⟨rfl, fun other held => ?_⟩
    rw [FileSystem.getElem?_insert_entry, if_neg, FileSystem.getElem?_erase_entry, if_neg]
    · exact held
    · rintro rfl
      rw [entry] at held
      cases held
    · rintro rfl
      rw [vacant] at held
      cases held
  tight := apart
  vacant := by
    intro other lasting new none
    rw [FileSystem.getElem?_insert_entry, if_neg, FileSystem.getElem?_erase_entry,
      if_neg (apart other lasting).symm, none]
    intro same
    exact new (place_injective (List.append_cancel_left same)).symm
  kept := by
    intro other held fast found
    refine ⟨?_, rfl⟩
    rw [FileSystem.getElem?_insert_entry, if_neg, FileSystem.getElem?_erase_entry,
      if_neg (Ne.symm fast), found]
    rintro rfl
    rw [vacant] at found
    cases found

end Elsewhere

/-- The place of the file through which a chunk is written is that of no key. -/
theorem root_place_ne (size : Nat) (root : List String) (key : Key) :
    ∀ other, Lasting size other → root ++ place other ≠ root ++ beside key :=
  fun other _ same => beside_ne_place key other (List.append_cancel_left same).symm

section Paths

variable {base : String} {key : Key}
  (leads : files.walk true (files.startOf base) (Path.names base) = .ok (.directory root))
include leads

/-- A path behind the base leads where the names behind the root do. -/
theorem walk_of_locate_behind {path : String} {more : List String} {target : Target}
    (behind : Path.Behind base path more) (led : files.locate path = .ok target) :
    files.walk (Path.endsInSlash path) root more = .ok target := by
  rw [files.locate_of_behind behind] at led
  by_cases long : FileSystem.pathLimit ≤ path.utf8ByteSize
  · rw [if_pos long] at led
    cases led
  · rwa [if_neg long, FileSystem.walk_append leads] at led

variable (filled : base ≠ "") (free : '\x00' ∉ base.toList)
include filled free

theorem names_of_locate_beside {target : Target}
    (led : files.locate (pathOf base key ++ ".tmp") = .ok target) :
    FileSystem.namesOf target = root ++ beside key :=
  FileSystem.names_of_walk (undotted_beside key)
    (walk_of_locate_behind leads (behind_beside filled free key) led)

theorem names_of_locate_pathOf {target : Target} (led : files.locate (pathOf base key) = .ok target) :
    FileSystem.namesOf target = root ++ place key :=
  FileSystem.names_of_walk (undotted_place key)
    (walk_of_locate_behind leads (behind_pathOf filled free key) led)

/-- Making sure of the directory for the file of a key makes the way there, or nothing. -/
theorem ensureDirectory_cases (long : 3 < key.size) :
    ((FileSystem.ensureDirectory (Path.trimmed (directoryOf base key))).run files).2 = files ∨
      ((FileSystem.ensureDirectory (Path.trimmed (directoryOf base key))).run files).2 =
        (FileSystem.makeWay root (folder key) files).2 := by
  have behind := behind_directoryOf filled free key
  rw [trimmed_directoryOf long]
  rcases FileSystem.run_ensureDirectory (directoryOf base key) files with ⟨same, -⟩ | made
  · exact .inl same
  · right
    rw [made.later, Fault.untilNul_of_free behind.free, behind.names_eq,
      files.startOf_of_behind behind, FileSystem.makeWay_append leads]

/-- The base without the slashes at its end is there, unless it is too long to be looked for. -/
theorem ensureDirectory_of_short (short : key.size ≤ 3) :
    ((FileSystem.ensureDirectory (Path.trimmed (directoryOf base key))).run files).2 = files := by
  have flat : directoryOf base key = base := by
    simp only [directoryOf, length_hex, if_pos (by omega : 2 * key.size ≤ 6)]
  obtain ⟨behind, -⟩ := Path.behind_trimmed filled free
  rw [flat]
  rcases FileSystem.run_ensureDirectory (Path.trimmed base) files with ⟨same, -⟩ | made
  · exact same
  · have nowhere := made.nowhere
    rw [FileSystem.find?, files.locate_of_behind behind, FileSystem.walk_append leads] at nowhere
    by_cases long : FileSystem.pathLimit ≤ (Path.trimmed base).utf8ByteSize
    · rw [if_pos long] at nowhere
      cases nowhere
    · rw [if_neg long] at nowhere
      cases nowhere

/-- Making sure of the directory for the file of a key leaves all places and files. -/
theorem leaves_ensureDirectory (sound : files.Sound) (lasting : Lasting size key)
    (tight : ∀ key, Lasting size key → ¬ loose (root ++ place key)) :
    Leaves size root changed loose files
      ((FileSystem.ensureDirectory (Path.trimmed (directoryOf base key))).run files).2 := by
  by_cases long : 3 < key.size
  · rcases ensureDirectory_cases leads filled free long with same | made
    · rw [same]
      exact Leaves.refl sound tight
    · have directory := FileSystem.placed_of_walk sound (sound.startOf base) leads
      have grown := (FileSystem.grown_makeWay sound directory (folder key)).1
      rw [length_folder long] at grown
      rw [made]
      exact leaves_of_grown (lasting.same ▸ long) tight grown
  · rw [ensureDirectory_of_short leads filled free (Nat.le_of_not_lt long)]
    exact Leaves.refl sound tight

/-- What something can be moved to while nothing is at the place is that place. -/
theorem locate_pathOf_of_rename (sound : files.Sound) {source : String} {old : List String}
    {number : Nat} (written : files.locate source = .ok (.file old number))
    (vacant : files.entries[root ++ place key]? = none)
    (renamed : files.rename source (pathOf base key) = .ok later) :
    files.locate (pathOf base key) = .ok (.vacant (root ++ place key)) := by
  unfold FileSystem.rename at renamed
  rcases led : files.locate (pathOf base key) with reason | (names | ⟨names, other⟩ | names)
  · simp only [written, led, bind, Except.bind] at renamed
    cases renamed
  · simp only [written, led, bind, Except.bind] at renamed
    cases renamed
  · have taken : files.entries[names]? = some (.file other) :=
      FileSystem.placed_of_locate sound led
    have same : names = root ++ place key := names_of_locate_pathOf leads filled free led
    rw [← same, taken] at vacant
    cases vacant
  · have same : names = root ++ place key := names_of_locate_pathOf leads filled free led
    rw [same]

end Paths

/-- There was a fault and nothing is new at any place, or the data are at the place of the key. -/
def Writes (size : Nat) (root : List String) (key : Key) (data : Bytes) (files : FileSystem)
    (ran : Except Fault Unit × FileSystem) : Prop :=
  (∃ fault, ran.1 = .error fault) ∧
      Leaves size root (fun _ => False) (· = root ++ beside key) files ran.2 ∨
    Leaves size root (· = key) (· = root ++ beside key) files ran.2 ∧
      ∃ number, ran.2.entries[root ++ place key]? = some (.file number) ∧
        ran.2.content number = data

theorem Writes.of_error {key : Key} {data : Bytes} {fault : Fault}
    (leaves : Leaves size root (fun _ => False) (· = root ++ beside key) files later) :
    Writes size root key data files (.error fault, later) :=
  .inl ⟨⟨fault, rfl⟩, leaves⟩

/-- If there is room only for a part of the data, that shows. -/
def Noticed (trouble? : Option Trouble) (data : Bytes) : Prop :=
  ∀ room, trouble? = some (.full room) → data.size < OutputFile.longRun → data.size ≤ room

section Write

variable {base : String} {key : Key} {data : Bytes} {number : Nat}
  (leads : files.walk true (files.startOf base) (Path.names base) = .ok (.directory root))
  (filled : base ≠ "") (free : '\x00' ∉ base.toList) (sound : files.Sound)

/-- Something is written to the file beside the place of a key, from when that is opened on. -/
structure Begun (size : Nat) (root : List String) (base : String) (key : Key) (number : Nat)
    (files later : FileSystem) : Prop where
  leaves : Leaves size root (fun _ => False) (· = root ++ beside key) files later
  leads : later.walk true (later.startOf base) (Path.names base) = .ok (.directory root)
  led : later.locate (pathOf base key ++ ".tmp") = .ok (.file (root ++ beside key) number)

theorem Begun.entry (begun : Begun size root base key number files later) :
    later.entries[root ++ beside key]? = some (.file number) :=
  FileSystem.placed_of_locate begun.leaves.sound begun.led

theorem Begun.of_rewrites (begun : Begun size root base key number files later)
    (rewrites : later.Rewrites number last) : Begun size root base key number files last where
  leaves := begun.leaves.trans
    (leaves_of_rewrites (root_place_ne size root key) begun.leaves.sound rewrites begun.entry)
  leads := by
    rw [FileSystem.startOf, rewrites.here, ← FileSystem.startOf,
      FileSystem.walk_congr rewrites.entries]
    exact begun.leads
  led := (rewrites.locate_eq _).trans begun.led

include leads filled free sound

/-- Opening the file beside the place. -/
theorem begun_of_create (size : Nat)
    (created : files.create (pathOf base key ++ ".tmp") = .ok (number, later)) :
    Begun size root base key number files later ∧ later.content number = #[] := by
  obtain ⟨names, opens⟩ := FileSystem.opens_of_create sound created
  have named : names = root ++ beside key := by
    rcases opens.led with led | led
    · exact names_of_locate_beside leads filled free led
    · exact names_of_locate_beside leads filled free led
  subst named
  have leaves : Leaves size root (fun _ => False) (· = root ++ beside key) files later :=
    leaves_of_opens (root_place_ne size root key) opens
  refine ⟨⟨leaves, ?_, opens.leads⟩, opens.empty⟩
  rw [leaves.keeps.startOf]
  exact FileSystem.walk_directory_of_keeps leaves.keeps leads

omit leads filled free sound in
/-- The file beside the place is removed. -/
theorem Begun.leaves_remove (begun : Begun size root base key number files later) :
    Leaves size root (fun _ => False) (· = root ++ beside key) files
      ((FileSystem.remove (pathOf base key ++ ".tmp")).run later).2 := by
  refine begun.leaves.trans ?_
  have removed : ((FileSystem.remove (pathOf base key ++ ".tmp")).run later).2 =
      { later with entries := later.entries.erase (root ++ beside key) } := by
    unfold FileSystem.remove Action.of Action.run
    simp only [begun.led]
  rw [removed]
  exact leaves_erase (root_place_ne size root key) begun.leaves.sound begun.entry

omit leads sound in
/-- The file beside the place is moved to the place, or is gone. -/
theorem Begun.writes_move (begun : Begun size root base key number files later)
    (lasting : Lasting size key) (vacant : files.entries[root ++ place key]? = none)
    (content : later.content number = data) :
    Writes size root key data files ((move base key).run later) := by
  rw [move, Action.run_of]
  rcases renamed : later.rename (pathOf base key ++ ".tmp") (pathOf base key) with reason | after
  · simp only [renamed]
    exact .of_error begun.leaves_remove
  · simp only [renamed]
    right
    have vacant := begun.leaves.vacant key lasting not_false vacant
    have target := locate_pathOf_of_rename begun.leads filled free begun.leaves.sound begun.led vacant
      renamed
    have bare : Path.endsInSlash (Fault.untilNul (pathOf base key)) = false := by
      rw [Fault.untilNul_of_free (behind_pathOf filled free key).free, lasting.endsInSlash_pathOf]
    obtain ⟨moved, after⟩ :=
      FileSystem.moved_of_rename begun.leaves.sound begun.led target bare
    rw [moved] at renamed
    cases renamed
    refine ⟨(begun.leaves.mono fun _ => False.elim).trans
      (leaves_moved (root_place_ne size root key) begun.entry vacant after), number, ?_, content⟩
    rw [FileSystem.getElem?_insert_entry, if_pos rfl]

variable (lasting : Lasting size key) (vacant : files.entries[root ++ place key]? = none)
include lasting vacant

/-- Writing the file of a chunk whose place is vacant. -/
theorem writes_writeFile (data : Bytes) :
    Writes size root key data files ((writeFile base key data).run files) := by
  rw [writeFile, Action.run_of]
  rcases created : files.create (pathOf base key ++ ".tmp") with reason | ⟨number, opened⟩
  · simp only [created]
    exact .of_error (Leaves.refl sound (root_place_ne size root key))
  · simp only [created]
    obtain ⟨begun, -⟩ := begun_of_create leads filled free sound size created
    exact (begun.of_rewrites (opened.rewrites_setContent number data)).writes_move filled free lasting
      vacant (FileSystem.content_setContent ..)

/-- Writing the file of a chunk whose place is vacant while something goes wrong. -/
theorem writes_writeFileUnder {trouble : Trouble} (noticed : Noticed (some trouble) data) :
    Writes size root key data files ((writeFileUnder base trouble key data).run files) := by
  have untouched : Leaves size root (fun _ => False) (· = root ++ beside key) files files :=
    Leaves.refl sound (root_place_ne size root key)
  rw [writeFileUnder, Action.run_of]
  simp only
  rcases created : files.create (pathOf base key ++ ".tmp") with reason | ⟨number, opened⟩
  · cases trouble with
    | _ => exact .of_error untouched
  obtain ⟨begun, empty⟩ := begun_of_create leads filled free sound size created
  have removed := (begun.of_rewrites (opened.rewrites_setContent number data)).leaves_remove
  cases trouble with
  | unmade cause =>
      simp only
      exact .of_error removed
  | uncreated => exact .of_error untouched
  | unmoved =>
      simp only
      exact .of_error removed
  | full room =>
      rcases wrote : (OutputFile.opened number (some room)).write opened data with
        ⟨after, file, taken⟩
      have same : file.number = number := by
        have kept := (OutputFile.opened number (some room)).number_write opened data
        rwa [wrote] at kept
      have rewrites := (OutputFile.opened number (some room)).rewrites_write opened data
      rw [wrote] at rewrites
      have filed := begun.of_rewrites (rewrites.trans (same ▸ file.rewrites_close after))
      cases taken with
      | true =>
          simp only [wrote, ↓reduceIte]
          apply filed.writes_move filled free lasting vacant
          rw [OutputFile.content_of_write wrote (noticed room rfl), empty, Array.empty_append]
      | false =>
          simp only [wrote, Bool.false_eq_true, ↓reduceIte]
          exact .of_error filed.leaves

end Write

variable {base : String} {root? : Option (List String)} {made : Key → Bytes → Prop} {key : Key}
  {data : Bytes}

/-- Chunks of which no two have one key and different data, and whose keys have one length. -/
structure Distinct (size : Nat) (made : Key → Bytes → Prop) : Prop where
  lasting : ∀ key data, made key data → Lasting size key
  single : ∀ key data other, made key data → made key other → data = other

/-- The base leads to this directory, or there is a file on the way to it. -/
def Leads (base : String) (root? : Option (List String)) (files : FileSystem) : Prop :=
  files.walk true (files.startOf base) (Path.names base) =
    match root? with
    | some root => .ok (.directory root)
    | none => .error .notDirectory

/-- Whatever is at the place of one of these chunks, if a path can lead there, is a file with its data. -/
structure Truthful (base : String) (root? : Option (List String)) (made : Key → Bytes → Prop)
    (files : FileSystem) : Prop where
  sound : files.Sound
  leads : Leads base root? files
  fine : ∀ root, root? = some root → ∀ key data, made key data →
    (pathOf base key).utf8ByteSize < FileSystem.pathLimit → ∀ entry : Entry,
      files.entries[root ++ place key]? = some entry →
        ∃ number, entry = .file number ∧ files.content number = data

/-- The file of a key can be read and holds the data. -/
structure OnDisk (base : String) (root? : Option (List String)) (files : FileSystem) (key : Key)
    (data : Bytes) : Prop where
  short : (pathOf base key).utf8ByteSize < FileSystem.pathLimit
  held : ∃ root number, root? = some root ∧
    files.entries[root ++ place key]? = some (.file number) ∧ files.content number = data

/-- Later, too, there is nothing false at the places, and nothing that was there is gone. -/
structure Follows (base : String) (root? : Option (List String)) (made : Key → Bytes → Prop)
    (files later : FileSystem) : Prop where
  truthful : Truthful base root? made later
  kept : ∀ key data, made key data → OnDisk base root? files key data →
    OnDisk base root? later key data

theorem Follows.refl (truthful : Truthful base root? made files) :
    Follows base root? made files files :=
  ⟨truthful, fun _ _ _ held => held⟩

theorem Follows.trans (first : Follows base root? made files later)
    (second : Follows base root? made later last) : Follows base root? made files last :=
  ⟨second.truthful, fun key data known held =>
    second.kept key data known (first.kept key data known held)⟩

/-- One of these chunks is written through a file of this name. -/
def Loose (root? : Option (List String)) (made : Key → Bytes → Prop) (names : List String) : Prop :=
  ∃ root key data, root? = some root ∧ made key data ∧ names = root ++ beside key

/-- Directories stay, and so do files as they are, but for those through which chunks are written. -/
structure Stays (root? : Option (List String)) (made : Key → Bytes → Prop)
    (files later : FileSystem) : Prop where
  keeps : files.KeepsDirectories later
  kept : ∀ names number, ¬ Loose root? made names → files.entries[names]? = some (.file number) →
    later.entries[names]? = some (.file number) ∧ later.content number = files.content number

theorem Stays.refl (files : FileSystem) : Stays root? made files files :=
  ⟨⟨rfl, fun _ held => held⟩, fun _ _ _ held => ⟨held, rfl⟩⟩

theorem Leaves.stays (leaves : Leaves size root changed (· = root ++ beside key) files later)
    (known : made key data) : Stays (some root) made files later where
  keeps := leaves.keeps
  kept names number fast :=
    leaves.kept names number fun same => fast ⟨root, key, data, rfl, known, same⟩

theorem follows_of_leaves (distinct : Distinct size made)
    (truthful : Truthful base (some root) made files)
    (leaves : Leaves size root changed loose files later)
    (correct : ∀ key data, made key data → changed key → ∃ number,
      later.entries[root ++ place key]? = some (.file number) ∧ later.content number = data) :
    Follows base (some root) made files later where
  truthful := by
    refine ⟨leaves.sound, ?_, ?_⟩
    · rw [Leads, leaves.keeps.startOf]
      exact FileSystem.walk_directory_of_keeps leaves.keeps truthful.leads
    · intro there same key data known short entry held
      cases same
      by_cases new : changed key
      · obtain ⟨number, here, content⟩ := correct key data known new
        rw [here] at held
        cases held
        exact ⟨number, rfl, content⟩
      · have lasting := distinct.lasting key data known
        rw [leaves.entry_eq lasting new] at held
        obtain ⟨number, rfl, content⟩ := truthful.fine root rfl key data known short entry held
        exact ⟨number, rfl, (leaves.kept _ number (leaves.tight key lasting) held).2.trans content⟩
  kept := by
    rintro key data known ⟨short, there, number, same, held, content⟩
    cases same
    refine ⟨short, root, ?_⟩
    by_cases new : changed key
    · obtain ⟨number, here, content⟩ := correct key data known new
      exact ⟨number, rfl, here, content⟩
    · have lasting := distinct.lasting key data known
      obtain ⟨still, same⟩ := leaves.kept _ number (leaves.tight key lasting) held
      exact ⟨number, rfl, still, same.trans content⟩

theorem run_putBy (base : String) (ensure : String → Action FileSystem Unit)
    (write : Key → Bytes → Action FileSystem Unit) (key : Key) (data : Bytes) (stated : UInt64)
    (files : FileSystem) :
    (putBy base ensure write ⟨key, some data, stated⟩).run files =
      match files.find? (pathOf base key) with
      | .error reason => (.error (.fileSystem "status" reason (pathOf base key)), files)
      | .ok (some _) => (.ok (), files)
      | .ok none =>
        match (ensure (Path.trimmed (directoryOf base key))).run files with
        | (.error cause, after) => (.error (.directoryUncreated cause), after)
        | (.ok (), after) => (write key data).run after := by
  unfold putBy has
  simp only
  rw [Action.run_bind, FileSystem.run_present]
  rcases files.find? (pathOf base key) with reason | _ | target
  · rfl
  · change (tryCatch (ensure (Path.trimmed (directoryOf base key))) _ >>=
      fun _ => write key data : Action FileSystem Unit).run files = _
    rw [Action.run_bind, Action.run_tryCatch]
    rcases (ensure (Path.trimmed (directoryOf base key))).run files with ⟨cause | _, after⟩
    · rfl
    · rfl
  · rfl

theorem run_put (base : String) (key : Key) (data : Bytes) (stated : UInt64) (files : FileSystem) :
    (put base ⟨key, some data, stated⟩).run files = match files.find? (pathOf base key) with
      | .error reason => (.error (.fileSystem "status" reason (pathOf base key)), files)
      | .ok (some _) => (.ok (), files)
      | .ok none =>
        match (FileSystem.ensureDirectory (Path.trimmed (directoryOf base key))).run files with
        | (.error cause, after) => (.error (.directoryUncreated cause), after)
        | (.ok (), after) => (writeFile base key data).run after :=
  run_putBy base _ _ key data stated files

/-- The path of a file leads somewhere exactly if there is something at its place. -/
theorem find?_pathOf (filled : base ≠ "") (free : '\x00' ∉ base.toList)
    (truthful : Truthful base (some root) made files) (lasting : Lasting size key)
    {target? : Option Target} (found : files.find? (pathOf base key) = .ok target?) :
    (pathOf base key).utf8ByteSize < FileSystem.pathLimit ∧
      (files.entries[root ++ place key]? = none ↔ target? = none) := by
  have leads : files.walk true (files.startOf base) (Path.names base) = .ok (.directory root) :=
    truthful.leads
  have plain := lasting.plain_place
  have some := lasting.place_ne_nil
  rw [FileSystem.find?, files.locate_of_behind (behind_pathOf filled free key),
    lasting.endsInSlash_pathOf, FileSystem.walk_append leads] at found
  by_cases long : FileSystem.pathLimit ≤ (pathOf base key).utf8ByteSize
  · rw [if_pos long] at found
    cases found
  rw [if_neg long] at found
  refine ⟨Nat.lt_of_not_le long, ?_⟩
  cases held : files.entries[root ++ place key]? with
  | none =>
      rcases FileSystem.walk_of_no_entry plain held some with led | led | led
      · rw [led] at found
        cases found
        simp
      · rw [led] at found
        cases found
        simp
      · rw [led] at found
        cases found
        simp
  | some entry =>
      rw [FileSystem.walk_of_entry truthful.sound plain held some] at found
      cases entry with
      | directory =>
          cases found
          simp
      | file number =>
          cases found
          simp

section Blocked

variable (leads : Leads base none files)
include leads

/-- Where a file is in the way to the base no path leads anywhere behind it. -/
theorem locate_of_blocked {path : String} {more : List String} (behind : Path.Behind base path more)
    (some : more ≠ []) :
    files.locate path = .error .nameTooLong ∨ files.locate path = .error .notDirectory := by
  rw [files.locate_of_behind behind, FileSystem.walk_append_of_notDirectory leads _ some]
  by_cases long : FileSystem.pathLimit ≤ path.utf8ByteSize
  · exact .inl (if_pos long)
  · exact .inr (if_neg long)

variable (filled : base ≠ "") (free : '\x00' ∉ base.toList)
include filled free

theorem create_beside_of_blocked (key : Key) :
    ∃ reason, files.create (pathOf base key ++ ".tmp") = .error reason := by
  have beside : beside key ≠ [] := List.append_ne_nil_of_right_ne_nil _ (List.cons_ne_nil _ _)
  unfold FileSystem.create FileSystem.openFor
  rcases locate_of_blocked leads (behind_beside filled free key) beside with led | led
  · rw [led]
    exact ⟨_, rfl⟩
  · rw [led]
    exact ⟨_, rfl⟩

theorem ensureDirectory_of_blocked (key : Key) :
    ((FileSystem.ensureDirectory (Path.trimmed (directoryOf base key))).run files).2 = files := by
  by_cases long : 3 < key.size
  · have behind := behind_directoryOf filled free key
    rw [trimmed_directoryOf long]
    rcases FileSystem.run_ensureDirectory (directoryOf base key) files with ⟨same, -⟩ | made
    · exact same
    · rw [made.later, Fault.untilNul_of_free behind.free, behind.names_eq,
        files.startOf_of_behind behind]
      exact FileSystem.makeWay_of_notDirectory leads _
  · have flat : directoryOf base key = base := by
      have length := length_hex key
      simp only [directoryOf, if_pos (by omega : (Hex.encode key.bytes.toList).length ≤ 6)]
    obtain ⟨behind, -⟩ := Path.behind_trimmed filled free
    rw [flat]
    rcases FileSystem.run_ensureDirectory (Path.trimmed base) files with ⟨same, -⟩ | made
    · exact same
    · rw [made.later, Fault.untilNul_of_free behind.free, behind.names_eq,
        files.startOf_of_behind behind]
      exact FileSystem.makeWay_of_notDirectory leads _

end Blocked

/-- What a put needs to be followed: making sure of a directory does nothing, or what it does for a put
where nothing goes wrong, and a file is written as far as it says. -/
structure Careful (base : String) (ensure : String → Action FileSystem Unit)
    (write : Key → Bytes → Action FileSystem Unit) (data : Bytes) : Prop where
  ensures : ∀ path files, (ensure path).run files = (FileSystem.ensureDirectory path).run files ∨
    ∃ fault, (ensure path).run files = (.error fault, files)
  writes : ∀ {files : FileSystem} {size : Nat} {root : List String} {key : Key},
    files.walk true (files.startOf base) (Path.names base) = .ok (.directory root) → base ≠ "" →
    '\x00' ∉ base.toList → files.Sound → Lasting size key →
    files.entries[root ++ place key]? = none →
      Writes size root key data files ((write key data).run files)
  fails : ∀ {files : FileSystem} {key : Key},
    (∃ reason, files.create (pathOf base key ++ ".tmp") = .error reason) →
      ∃ fault, (write key data).run files = (.error fault, files)

theorem careful_put (base : String) (data : Bytes) :
    Careful base FileSystem.ensureDirectory (writeFile base) data where
  ensures _ _ := .inl rfl
  writes leads filled free sound lasting vacant :=
    writes_writeFile leads filled free sound lasting vacant data
  fails := by
    rintro files key ⟨reason, failed⟩
    rw [writeFile, Action.run_of]
    simp only [failed]
    exact ⟨_, rfl⟩

theorem careful_putUnder (base : String) {trouble : Trouble} {data : Bytes}
    (noticed : Noticed (some trouble) data) :
    Careful base trouble.ensureDirectory (writeFileUnder base trouble) data where
  ensures path files := by
    cases trouble with
    | unmade cause => exact .inr ⟨cause, rfl⟩
    | uncreated => exact .inl rfl
    | full room => exact .inl rfl
    | unmoved => exact .inl rfl
  writes leads filled free sound lasting vacant :=
    writes_writeFileUnder leads filled free sound lasting vacant noticed
  fails := by
    rintro files key ⟨reason, failed⟩
    rw [writeFileUnder, Action.run_of]
    simp only [failed]
    cases trouble with
    | unmade cause => exact ⟨_, rfl⟩
    | uncreated => exact ⟨_, rfl⟩
    | full room => exact ⟨_, rfl⟩
    | unmoved => exact ⟨_, rfl⟩

/-- Putting a chunk leaves what is there, and if it succeeds, the chunk is there. -/
theorem follows_putBy {ensure : String → Action FileSystem Unit}
    {write : Key → Bytes → Action FileSystem Unit} (filled : base ≠ "") (free : '\x00' ∉ base.toList)
    (distinct : Distinct size made) (truthful : Truthful base root? made files)
    (known : made key data) (careful : Careful base ensure write data) (stated : UInt64) :
    Follows base root? made files ((putBy base ensure write ⟨key, some data, stated⟩).run files).2 ∧
      Stays root? made files ((putBy base ensure write ⟨key, some data, stated⟩).run files).2 ∧
      (((putBy base ensure write ⟨key, some data, stated⟩).run files).1 = .ok () → OnDisk base root?
        ((putBy base ensure write ⟨key, some data, stated⟩).run files).2 key data) := by
  have lasting := distinct.lasting key data known
  have unchanged := Follows.refl truthful
  have still : Stays root? made files files := Stays.refl files
  rw [run_putBy]
  cases root? with
  | none =>
      have there := ensureDirectory_of_blocked truthful.leads filled free key
      obtain ⟨_, unwritten⟩ := careful.fails (create_beside_of_blocked truthful.leads filled free key)
      have nowhere : files.find? (pathOf base key) = .error .nameTooLong ∨
          files.find? (pathOf base key) = .ok none := by
        rw [FileSystem.find?]
        rcases locate_of_blocked truthful.leads (behind_pathOf filled free key)
          lasting.place_ne_nil with led | led
        · rw [led]
          exact .inl rfl
        · rw [led]
          exact .inr rfl
      rcases nowhere with found | found
      · rw [found]
        exact ⟨unchanged, still, fun never => by cases never⟩
      · rw [found]
        simp only
        rcases careful.ensures (Path.trimmed (directoryOf base key)) files with ran | ⟨fault, ran⟩
        · rw [ran]
          rcases made : (FileSystem.ensureDirectory (Path.trimmed (directoryOf base key))).run files with
            ⟨cause | _, after⟩
          · rw [made] at there
            cases there
            exact ⟨unchanged, still, fun never => by cases never⟩
          · rw [made] at there
            cases there
            simp only [unwritten]
            exact ⟨unchanged, still, fun never => by cases never⟩
        · rw [ran]
          exact ⟨unchanged, still, fun never => by cases never⟩
  | some root =>
      have leads : files.walk true (files.startOf base) (Path.names base) =
          .ok (.directory root) := truthful.leads
      rcases found : files.find? (pathOf base key) with reason | _ | target
      · exact ⟨unchanged, still, fun never => by cases never⟩
      · obtain ⟨short, vacant⟩ := find?_pathOf filled free truthful lasting found
        simp only
        rcases careful.ensures (Path.trimmed (directoryOf base key)) files with ran | ⟨fault, ran⟩
        · rw [ran]
          have ensured : Leaves size root (fun _ => False) (· = root ++ beside key) files _ :=
            leaves_ensureDirectory leads filled free truthful.sound lasting
              (root_place_ne size root key)
          have follows := follows_of_leaves distinct truthful ensured fun _ _ _ never => never.elim
          rcases made : (FileSystem.ensureDirectory (Path.trimmed (directoryOf base key))).run files with
            ⟨cause | _, after⟩
          · rw [made] at follows ensured
            exact ⟨follows, ensured.stays known, fun never => by cases never⟩
          rw [made] at ensured follows
          simp only at ensured follows ⊢
          have stillVacant := ensured.vacant key lasting not_false (vacant.mpr rfl)
          rcases careful.writes follows.truthful.leads filled free ensured.sound lasting stillVacant with
            ⟨⟨fault, failed⟩, leaves⟩ | ⟨leaves, number, entry, content⟩
          · refine ⟨follows.trans (follows_of_leaves distinct follows.truthful leaves
              fun _ _ _ never => never.elim), (ensured.trans leaves).stays known, fun never => ?_⟩
            rw [failed] at never
            cases never
          · refine ⟨follows.trans (follows_of_leaves distinct follows.truthful leaves ?_),
              ((ensured.mono fun _ => False.elim).trans leaves).stays known,
              fun _ => ⟨short, root, number, rfl, entry, content⟩⟩
            rintro other otherData otherKnown rfl
            exact ⟨number, entry, content.trans (distinct.single _ _ _ known otherKnown)⟩
        · rw [ran]
          exact ⟨unchanged, still, fun never => by cases never⟩
      · obtain ⟨short, vacant⟩ := find?_pathOf filled free truthful lasting found
        obtain ⟨entry, held⟩ := Option.ne_none_iff_exists'.mp fun none => by
          cases vacant.mp none
        obtain ⟨number, rfl, content⟩ := truthful.fine root rfl key data known short entry held
        exact ⟨unchanged, still, fun _ => ⟨short, root, number, rfl, held, content⟩⟩

end ChunkTree.Disk
