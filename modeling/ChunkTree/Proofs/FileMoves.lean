import ChunkTree.Proofs.FileChanges

/-!
# Directories while files come and go

Opening a file for writing, writing to it, giving it another name and taking its name away concern
files alone: all is still in order, the directories are as they were, and the root is not a file
(`FileSystem.Refiled`).
-/

namespace ChunkTree.FileSystem

variable {files later last : FileSystem}

/-- Only files have come, changed or gone. -/
structure Refiled (files later : FileSystem) : Prop where
  sound : later.Sound
  here : later.here = files.here
  directories : ∀ names : List String,
    later.entries[names]? = some .directory ↔ files.entries[names]? = some .directory
  root : (∀ number, files.entries[([] : List String)]? ≠ some (.file number)) →
    ∀ number, later.entries[([] : List String)]? ≠ some (.file number)

theorem Refiled.refl (sound : files.Sound) : files.Refiled files := ⟨sound, rfl, fun _ => .rfl, id⟩

theorem Refiled.trans (first : files.Refiled later) (second : later.Refiled last) :
    files.Refiled last where
  sound := second.sound
  here := second.here.trans first.here
  directories names := (second.directories names).trans (first.directories names)
  root := second.root ∘ first.root

theorem Refiled.keepsDirectories (refiled : files.Refiled later) : files.KeepsDirectories later :=
  ⟨refiled.here, fun names => (refiled.directories names).mpr⟩

/-- Where a directory is, no file comes. -/
theorem Refiled.not_file (refiled : files.Refiled later) {names : List String}
    (directory : files.IsDirectory names) (before : ∀ number, files.entries[names]? ≠ some (.file number))
    (number : Nat) : later.entries[names]? ≠ some (.file number) := by
  rcases directory with rfl | held
  · exact refiled.root before number
  · rw [(refiled.directories names).mpr held]
    exact fun never => by cases never

theorem refiled_of_rewrites (sound : files.Sound) {number : Nat}
    (rewrites : files.Rewrites number later) : files.Refiled later := by
  refine ⟨rewrites.sound sound, rewrites.here, fun names => ?_, fun before => ?_⟩
  · rw [rewrites.entries]
  · rw [rewrites.entries]
    exact before

/-- A file to which names lead has the last of them for its name. -/
theorem exists_last_of_walk {wanted : Bool} {here names found : List String} {number : Nat}
    (led : files.walk wanted here names = .ok (.file found number)) :
    ∃ above name, found = above ++ [name] := by
  fun_induction files.walk wanted here names with
  | case1 here => cases led
  | case2 here rest ih => exact ih led
  | case3 here rest _ ih => exact ih led
  | case4 here name rest _ _ long => cases led
  | case5 here name rest _ _ _ next entry ih => exact ih led
  | case6 here name rest _ _ _ next number entry last =>
      exact ⟨here, name, (Target.file.inj (Except.ok.inj led)).1.symm⟩
  | case7 here name rest _ _ _ next number entry more => cases led
  | case8 here name _ _ _ next entry => cases led
  | case9 here name rest _ _ _ next entry more => cases led

/-- A file or nothing is at a name in a directory. -/
theorem above_of_locate (sound : files.Sound) {path : String} {names : List String}
    (led : files.locate path = .ok (.vacant names) ∨
      ∃ number, files.locate path = .ok (.file names number)) :
    ∃ above name, names = above ++ [name] ∧ files.IsDirectory above ∧
      files.entries[names]? ≠ some .directory := by
  rcases led with led | ⟨number, led⟩
  · obtain ⟨vacant, above, name, same, directory⟩ := placed_of_locate sound led
    refine ⟨above, name, same, directory, ?_⟩
    rw [vacant]
    exact fun never => by cases never
  · have held : files.entries[names]? = some (.file number) := placed_of_locate sound led
    obtain ⟨above, name, same⟩ := exists_last_of_walk (walk_of_locate led)
    refine ⟨above, name, same, sound.nested above name ?_, ?_⟩
    · rw [← same, held]
      exact Option.some_ne_none _
    · rw [held]
      exact fun never => by cases never

theorem refiled_of_opens (sound : files.Sound) {path : String} {names : List String} {number : Nat}
    (opens : Opens files later path names number) : files.Refiled later := by
  obtain ⟨above, name, same, -, notDirectory⟩ := above_of_locate sound
    (opens.led.symm.imp id fun led => ⟨number, led⟩)
  refine ⟨opens.sound, opens.here, fun other => ?_, fun before => ?_⟩
  · by_cases new : other = names
    · rw [new, opens.entry]
      exact ⟨fun never => (by cases never), fun held => absurd held notDirectory⟩
    · rw [opens.others other new]
  · rw [opens.others [] fun root => by rw [← root] at same; cases (List.append_eq_nil_iff.mp same.symm).2]
    exact before

/-- A file loses its name. -/
theorem refiled_erase (sound : files.Sound) {names : List String} {number : Nat}
    (entry : files.entries[names]? = some (.file number)) :
    files.Refiled { files with entries := files.entries.erase names } := by
  refine ⟨sound.erase entry, rfl, fun other => ?_, fun before number => ?_⟩
  · rw [getElem?_erase_entry]
    by_cases same : names = other
    · rw [if_pos same, ← same, entry]
      simp
    · rw [if_neg same]
  · rw [getElem?_erase_entry]
    by_cases same : names = []
    · rw [if_pos same]
      exact fun never => by cases never
    · rw [if_neg same]
      exact before number

/-- A file without a name is given one in a directory, which no directory has. -/
theorem refiled_insert (sound : files.Sound) {above : List String} {name : String} {number : Nat}
    (directory : files.IsDirectory above) (notDirectory : files.entries[above ++ [name]]? ≠ some .directory)
    (known : number < files.next)
    (unnamed : ∀ other : List String, files.entries[other]? ≠ some (.file number)) :
    files.Refiled
      { files with entries := files.entries.insert (above ++ [name]) (.file number) } := by
  have fresh : ∀ other, Entry.file number = .file other → other < files.next ∧
      ∀ names : List String, files.entries[names]? ≠ some (.file other) := by
    intro other same
    cases same
    exact ⟨known, unnamed⟩
  have ordered : Sound { files with entries := files.entries.insert (above ++ [name]) (.file number) } := by
    rcases held : files.entries[above ++ [name]]? with _ | _ | other
    · exact sound.insert files.contents directory held (Nat.le_refl _) fresh
    · exact absurd held notDirectory
    · have gone : (files.entries.erase (above ++ [name]))[above ++ [name]]? = none := by
        rw [getElem?_erase_entry, if_pos rfl]
      have again : (files.entries.erase (above ++ [name])).insert (above ++ [name]) (.file number) =
          files.entries.insert (above ++ [name]) (.file number) := by
        apply Std.ExtTreeMap.ext_getElem?
        intro names
        rw [getElem?_insert_entry, getElem?_insert_entry, getElem?_erase_entry]
        by_cases same : above ++ [name] = names
        · rw [if_pos same, if_pos same]
        · rw [if_neg same, if_neg same, if_neg same]
      have first := refiled_erase sound held
      have free : ∀ taken, Entry.file number = .file taken → taken < files.next ∧
          ∀ names : List String,
            (files.entries.erase (above ++ [name]))[names]? ≠ some (.file taken) := by
        intro taken same
        obtain ⟨bound, nameless⟩ := fresh taken same
        refine ⟨bound, fun names named => nameless names ?_⟩
        rw [getElem?_erase_entry] at named
        by_cases same : above ++ [name] = names
        · rw [if_pos same] at named
          cases named
        · rwa [if_neg same] at named
      have second := first.sound.insert files.contents (first.keepsDirectories.isDirectory directory)
        gone (Nat.le_refl _) free
      exact again ▸ second
  refine ⟨ordered, rfl, fun names => ?_, fun before taken => ?_⟩
  · rw [getElem?_insert_entry]
    by_cases same : above ++ [name] = names
    · rw [if_pos same, ← same]
      exact ⟨fun never => (by cases never), fun held => absurd held notDirectory⟩
    · rw [if_neg same]
  · rw [getElem?_insert_entry, if_neg fun root => by cases (List.append_eq_nil_iff.mp root).2]
    exact before taken

/-- What is given another name is a file, and the name is vacant or that of a file. -/
theorem rename_cases {source target : String} (renamed : files.rename source target = .ok later) :
    ∃ old number new, files.locate source = .ok (.file old number) ∧
      (files.locate target = .ok (.vacant new) ∨
        ∃ other, files.locate target = .ok (.file new other)) ∧
      later = { files with entries := (files.entries.erase old).insert new (.file number) } := by
  unfold rename at renamed
  rcases found : files.locate source with reason | (names | ⟨old, number⟩ | names)
  · rw [found] at renamed
    cases renamed
  · rcases led : files.locate target with reason | (_ | _ | _) <;>
      simp [found, led, bind, Except.bind] at renamed
  · rcases led : files.locate target with reason | (_ | ⟨new, other⟩ | new)
    · simp [found, led, bind, Except.bind] at renamed
    · simp [found, led, bind, Except.bind] at renamed
    · simp only [found, led, bind, Except.bind] at renamed
      split at renamed
      · cases renamed
      · exact ⟨old, number, new, rfl, .inr ⟨other, rfl⟩, (Except.ok.inj renamed).symm⟩
    · simp only [found, led, bind, Except.bind] at renamed
      split at renamed
      · cases renamed
      · exact ⟨old, number, new, rfl, .inl rfl, (Except.ok.inj renamed).symm⟩
  · rcases led : files.locate target with reason | (_ | _ | _) <;>
      simp [found, led, bind, Except.bind] at renamed

theorem refiled_of_rename (sound : files.Sound) {source target : String}
    (renamed : files.rename source target = .ok later) : files.Refiled later := by
  obtain ⟨old, number, new, found, led, rfl⟩ := rename_cases renamed
  have entry : files.entries[old]? = some (.file number) := placed_of_locate sound found
  obtain ⟨above, name, rfl, directory, notDirectory⟩ := above_of_locate sound led
  have first := refiled_erase sound entry
  refine first.trans (refiled_insert first.sound (first.keepsDirectories.isDirectory directory)
    (fun held => notDirectory ((first.directories _).mp held)) (sound.fresh old number entry)
    fun other named => ?_)
  rw [getElem?_erase_entry] at named
  by_cases same : old = other
  · rw [if_pos same] at named
    cases named
  · rw [if_neg same] at named
    exact same (sound.unique old other number entry named)

end ChunkTree.FileSystem
