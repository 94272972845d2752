import ChunkTree.Proofs.ChunkFiles
import ChunkTree.Proofs.FileAdditions

/-!
# Opening a store on disk and reading from it

A store that could be opened has a base directory, or a file where that should be
(`Disk.leads_of_openAt`), and opens again for as long as the directory is there
(`Disk.openAt_of_leads`).  Getting chunks changes nothing, and finds those that are on disk
(`Disk.get_of_onDisk`).  Files outside of the base directory may come and change: the store has all that
it had (`Disk.follows_of_widens`, `Disk.follows_of_opens`).
-/

namespace ChunkTree.Disk

open FileSystem (KeepsDirectories Opens)

variable {base : String} {root? : Option (List String)} {made : Key → Bytes → Prop}
  {files later : FileSystem} {key : Key} {data : Bytes} {size : Nat}

/-- A path that can be followed, unless a name in it cannot. -/
structure Usable (base : String) : Prop where
  filled : base ≠ ""
  free : '\x00' ∉ base.toList
  short : base.utf8ByteSize < FileSystem.pathLimit

theorem Usable.locate_eq (usable : Usable base) (files : FileSystem) :
    files.locate base =
      files.walk (Path.endsInSlash base) (files.startOf base) (Path.names base) := by
  rw [files.locate_of_behind (.refl usable.filled usable.free),
    if_neg (Nat.not_le_of_lt usable.short), List.append_nil]

/-- The path of the base leads where the base does. -/
theorem Usable.locate_of_leads (usable : Usable base) {root : List String}
    (leads : Leads base (some root) files) : files.locate base = .ok (.directory root) := by
  rw [usable.locate_eq]
  exact FileSystem.walk_of_walk_true leads _

theorem usable_of_find? {target? : Option Target} (free : '\x00' ∉ base.toList)
    (filled : base ≠ "") (found : files.find? base = .ok target?) : Usable base := by
  refine ⟨filled, free, Nat.lt_of_not_le fun long => ?_⟩
  rw [FileSystem.find?, files.locate_of_behind (.refl filled free), if_pos long] at found
  cases found

/-- When a store has been opened, something was at its base, or the way to it was made. -/
theorem openAt_cases (opened : (openAt base).run files = (.ok (), later)) :
    later = files ∧ (∃ target, files.find? base = .ok (some target)) ∨
      FileSystem.Made base files (.ok (), later) := by
  rw [openAt, Action.run_tryCatch] at opened
  rcases ran : (FileSystem.ensureDirectory base).run files with ⟨cause | _, after⟩
  · rw [ran] at opened
    cases opened
  rw [ran] at opened
  cases opened
  rcases FileSystem.run_ensureDirectory base files with ⟨same, here⟩ | made
  · rw [ran] at same here
    exact .inl ⟨same, here rfl⟩
  · rw [ran] at made
    exact .inr made

/-- When a store has been opened, its base leads to a directory, or a file is there. -/
theorem leads_of_openAt (sound : files.Sound) (free : '\x00' ∉ base.toList)
    (opened : (openAt base).run files = (.ok (), later)) :
    Usable base ∧ files.Widens (FileSystem.OnWay files.here base) (fun _ => False) later ∧
      ∃ root?, Leads base root? later := by
  rcases openAt_cases opened with ⟨rfl, target, found⟩ | made
  · have filled : base ≠ "" := by
      rintro rfl
      cases found
    have usable := usable_of_find? free filled found
    refine ⟨usable, .refl sound, ?_⟩
    rw [FileSystem.find?, usable.locate_eq] at found
    rcases led : later.walk (Path.endsInSlash base) (later.startOf base) (Path.names base) with
      reason | (root | ⟨names, number⟩ | names)
    · rw [led] at found
      cases reason <;> cases found
    · exact ⟨some root, FileSystem.walk_true_of_directory led⟩
    · exact ⟨none, FileSystem.walk_true_of_file led⟩
    · rw [led] at found
      cases found
  · have filled : base ≠ "" := by
      rintro rfl
      exact made.named rfl
    have usable := usable_of_find? free filled made.nowhere
    obtain ⟨grown, led⟩ := FileSystem.grown_makeWay sound (sound.startOf base) (Path.names base)
    have later := made.later
    have whole := made.whole
    rw [Fault.untilNul_of_free free] at later whole
    obtain ⟨root, leads⟩ := led (whole rfl)
    simp only at later
    rw [later]
    refine ⟨usable, FileSystem.widens_makeWay sound (sound.startOf base) (Path.names base), some root,
      ?_⟩
    rw [Leads, grown.keepsDirectories.startOf]
    exact leads

/-- If a path leads anywhere, it is a file with this data. -/
def Clear (files : FileSystem) (path : String) (data : Bytes) : Prop :=
  ∀ target, files.find? path = .ok (some target) →
    ∃ names number, target = .file names number ∧ files.content number = data

/-- When nothing false is at the paths of chunks, nothing false is at their places. -/
theorem truthful_of_clear (usable : Usable base) (distinct : Distinct size made) (sound : files.Sound)
    (leads : Leads base root? files)
    (clear : ∀ key data, made key data → Clear files (pathOf base key) data) :
    Truthful base root? made files := by
  refine ⟨sound, leads, ?_⟩
  rintro root rfl key data known short entry held
  have lasting := distinct.lasting key data known
  have found : files.find? (pathOf base key) =
      .ok (some (FileSystem.targetOf (root ++ place key) entry)) := by
    rw [FileSystem.find?, files.locate_of_behind (behind_pathOf usable.filled usable.free key),
      if_neg (Nat.not_le_of_lt short), lasting.endsInSlash_pathOf, FileSystem.walk_append leads,
      FileSystem.walk_of_entry sound lasting.plain_place held lasting.place_ne_nil]
    cases entry with
    | directory => rfl
    | file number => rfl
  obtain ⟨names, number, led, content⟩ := clear key data known _ found
  cases entry with
  | directory => cases led
  | file _ =>
      cases led
      exact ⟨number, rfl, content⟩

/-- A store whose base leads to a directory opens, and nothing changes. -/
theorem openAt_of_leads (usable : Usable base) {root : List String}
    (leads : Leads base (some root) files) : (openAt base).run files = (.ok (), files) := by
  have found : files.find? base = .ok (some (.directory root)) := by
    rw [FileSystem.find?, usable.locate_of_leads leads]
  rw [openAt, Action.run_tryCatch, FileSystem.ensureDirectory, Action.run_bind,
    FileSystem.run_present, found]
  rfl

/-- What is answered for a key, from what its path leads to and the content of files. -/
def answer (key : Key) (path : String) (content : Nat → Bytes) :
    Except PathFault Target → Except Fault (Option Chunk)
  | .ok (.file _ number) => do
    return some ⟨key, some (content number), ← Header.decode (content number)⟩
  | .ok (.directory _) => .error .directoryRead
  | .ok (.vacant _) | .error .missing | .error .notDirectory => .ok none
  | .error reason => .error (.fileSystem "status" reason path)

/-- Getting a chunk reads what its path leads to, and changes nothing. -/
theorem run_get (base : String) (key : Key) (files : FileSystem) :
    (get base key).run files =
      (answer key (pathOf base key) files.content (files.locate (pathOf base key)), files) := by
  rw [get, Action.run_bind, Action.run_state]
  generalize path : pathOf base key = place
  simp only
  rcases led : files.locate place with reason | (names | ⟨names, number⟩ | names)
  · simp only
    rw [has, path, Action.run_bind, FileSystem.run_present, FileSystem.find?, led]
    cases reason <;> rfl
  · rfl
  · simp only
    rw [Action.run_bind, Action.run_lift, answer]
    cases Header.decode (files.content number) with
    | error fault => rfl
    | ok size => rfl
  · simp only
    rw [has, path, Action.run_bind, FileSystem.run_present, FileSystem.find?, led]
    rfl

/-- A directory with the path of a chunk is taken for its file: the chunk is put without being written,
and cannot be got. -/
theorem run_put_of_directory {names : List String}
    (led : files.locate (pathOf base key) = .ok (.directory names)) (data : Bytes) (size : UInt64) :
    (put base ⟨key, some data, size⟩).run files = (.ok (), files) ∧
      (get base key).run files = (.error .directoryRead, files) := by
  rw [run_put, run_get, FileSystem.find?, led]
  exact ⟨rfl, rfl⟩

/-- A chunk that is on disk is found. -/
theorem get_of_onDisk (usable : Usable base) (truthful : Truthful base root? made files)
    (lasting : Lasting size key) (onDisk : OnDisk base root? files key data) {stated : UInt64}
    (header : Header.decode data = .ok stated) :
    (get base key).run files = (.ok (some ⟨key, some data, stated⟩), files) := by
  obtain ⟨root, number, rfl, held, rfl⟩ := onDisk.held
  have led : files.locate (pathOf base key) = .ok (.file (root ++ place key) number) := by
    rw [files.locate_of_behind (behind_pathOf usable.filled usable.free key),
      if_neg (Nat.not_le_of_lt onDisk.short), lasting.endsInSlash_pathOf,
      FileSystem.walk_append truthful.leads,
      FileSystem.walk_of_entry truthful.sound lasting.plain_place held lasting.place_ne_nil]
    rfl
  rw [run_get, led, answer, header]
  rfl

/-- What takes nothing away, makes nothing at the places of chunks and writes to none of their files
changes nothing for the store. -/
theorem follows_of_widens {fresh : List String → Prop} {written : Nat → Prop}
    (truthful : Truthful base root? made files) (widens : files.Widens fresh written later)
    (apart : ∀ root key data, root? = some root → made key data → ¬ fresh (root ++ place key))
    (unwritten : ∀ root key data number, root? = some root → made key data →
      files.entries[root ++ place key]? = some (.file number) → ¬ written number) :
    Follows base root? made files later := by
  have entries {root : List String} {key : Key} {data : Bytes} (same : root? = some root)
      (known : made key data) :
      later.entries[root ++ place key]? = files.entries[root ++ place key]? :=
    (widens.entries _).resolve_right fun new => apart root key data same known new.2
  refine ⟨⟨widens.sound, ?_, ?_⟩, ?_⟩
  · cases root? with
    | some root =>
        rw [Leads, widens.keepsDirectories.startOf]
        exact FileSystem.walk_directory_of_keeps widens.keepsDirectories truthful.leads
    | none =>
        rw [Leads, widens.keepsDirectories.startOf]
        exact FileSystem.walk_notDirectory_of_keeps (fun _ _ => widens.kept) truthful.leads
  · intro root same key data known short entry held
    rw [entries same known] at held
    obtain ⟨number, rfl, content⟩ := truthful.fine root same key data known short entry held
    exact ⟨number, rfl, (widens.contents _ number held
      (unwritten root key data number same known held)).trans content⟩
  · rintro key data known ⟨short, root, number, same, held, content⟩
    exact ⟨short, root, number, same, widens.kept held, (widens.contents _ number held
      (unwritten root key data number same known held)).trans content⟩

section Elsewhere

variable {names : List String} {number : Nat} (truthful : Truthful base root? made files)
  (apart : ∀ root key data, root? = some root → made key data → root ++ place key ≠ names)
include truthful apart

/-- A file that is opened at none of the places. -/
theorem follows_of_opens {path : String} (opens : Opens files later path names number) :
    Follows base root? made files later := by
  refine follows_of_widens truthful (FileSystem.widens_of_opens opens) apart ?_
  rintro root key data number same known held rfl
  have there := (opens.others _ (apart root key data same known)).trans held
  exact apart root key data same known (opens.sound.unique _ _ number there opens.entry)

/-- Writing to a file that is at none of the places. -/
theorem follows_of_rewrites (rewrites : files.Rewrites number later)
    (entry : files.entries[names]? = some (.file number)) :
    Follows base root? made files later := by
  have widens : files.Widens (fun _ => False) (· = number) later :=
    FileSystem.widens_of_rewrites truthful.sound rewrites
  refine follows_of_widens truthful widens (fun _ _ _ _ _ => id) ?_
  rintro root key data number same known held rfl
  exact apart root key data same known (truthful.sound.unique _ _ number held entry)

end Elsewhere

end ChunkTree.Disk
