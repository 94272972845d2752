import ChunkTree.Proofs.FileChanges
import ChunkTree.Proofs.PathNames

/-!
# What is added to a file system

Some changes take nothing away: all entries stay, and only some files are written
(`FileSystem.Widens`).  Making directories adds entries on the way that a path goes
(`FileSystem.widens_createDirectories`), and opening a file adds one at its end.
-/

namespace ChunkTree.FileSystem

variable {fresh more : List String → Prop} {written others : Nat → Prop} {files later last : FileSystem}

/-- All entries are as they were, but for fresh ones, and so are all files, but for those that are
written. -/
structure Widens (fresh : List String → Prop) (written : Nat → Prop) (files later : FileSystem) :
    Prop where
  sound : later.Sound
  here : later.here = files.here
  entries : ∀ names : List String, later.entries[names]? = files.entries[names]? ∨
    files.entries[names]? = none ∧ fresh names
  contents : ∀ (names : List String) (number : Nat), files.entries[names]? = some (.file number) →
    ¬ written number → later.content number = files.content number

theorem Widens.refl (sound : files.Sound) : Widens fresh written files files :=
  ⟨sound, rfl, fun _ => .inl rfl, fun _ _ _ _ => rfl⟩

/-- What was there is there. -/
theorem Widens.kept (widens : Widens fresh written files later) {names : List String} {entry : Entry}
    (held : files.entries[names]? = some entry) : later.entries[names]? = some entry := by
  rcases widens.entries names with same | ⟨none, -⟩
  · exact same.trans held
  · rw [held] at none
    cases none

theorem Widens.keepsDirectories (widens : Widens fresh written files later) :
    files.KeepsDirectories later :=
  ⟨widens.here, fun _ held => widens.kept held⟩

theorem Widens.trans (first : Widens fresh written files later)
    (second : Widens fresh written later last) : Widens fresh written files last where
  sound := second.sound
  here := second.here.trans first.here
  entries := by
    intro names
    rcases first.entries names with same | none
    · rcases second.entries names with again | ⟨none, new⟩
      · exact .inl (again.trans same)
      · exact .inr ⟨same ▸ none, new⟩
    · exact .inr none
  contents names number held other :=
    (second.contents names number (first.kept held) other).trans
      (first.contents names number held other)

theorem Widens.mono (widens : Widens fresh written files later) (new : ∀ names, fresh names → more names)
    (known : ∀ number, written number → others number) : Widens more others files later where
  sound := widens.sound
  here := widens.here
  entries names := (widens.entries names).imp id (And.imp id (new names))
  contents names number held other := widens.contents names number held fun this => other (known _ this)

theorem widens_of_opens {path : String} {names : List String} {number : Nat}
    (opens : files.Opens later path names number) : Widens (· = names) (· = number) files later where
  sound := opens.sound
  here := opens.here
  entries := by
    intro other
    by_cases same : other = names
    · cases held : files.entries[names]? with
      | none => exact .inr ⟨same ▸ held, same⟩
      | some entry =>
          left
          rw [same, opens.entry, opens.kept (by rw [held]; exact Option.some_ne_none _)]
    · exact .inl (opens.others other same)
  contents _ held _ apart := opens.contents held apart

/-- A file that is new is written when it is opened, and no other is. -/
theorem widens_of_opens_vacant (sound : files.Sound) {path : String} {names : List String} {number : Nat}
    (opens : files.Opens later path names number) (vacant : files.locate path = .ok (.vacant names)) :
    Widens (· = names) (fun _ => False) files later := by
  have widens := widens_of_opens opens
  refine ⟨widens.sound, widens.here, widens.entries, fun other held entry _ => ?_⟩
  refine widens.contents other held entry ?_
  rintro rfl
  obtain rfl := widens.sound.unique _ _ held (widens.kept entry) opens.entry
  have none : files.entries[other]? = none := (placed_of_locate sound vacant).1
  rw [entry] at none
  cases none

theorem widens_of_rewrites {number : Nat} (sound : files.Sound) (rewrites : files.Rewrites number later) :
    Widens fresh (· = number) files later where
  sound := rewrites.sound sound
  here := rewrites.here
  entries _ := .inl (by rw [rewrites.entries])
  contents _ held _ apart := rewrites.contents held apart

/-- Where a path leads from a directory, if it leads anywhere. -/
def spot (here : List String) (path : String) : List String :=
  reach (if Path.isAbsolute path then [] else here) (Path.names path)

/-- Whoever follows a path from a directory comes by here. -/
def OnWay (here : List String) (path : String) (names : List String) : Prop :=
  ∃ way, way <+: Path.names path ∧ names = reach (if Path.isAbsolute path then [] else here) way

theorem onWay_spot (here : List String) (path : String) : OnWay here path (spot here path) :=
  ⟨_, List.prefix_rfl, rfl⟩

theorem namesOf_of_locate {path : String} (free : '\x00' ∉ path.toList) {target : Target}
    (led : files.locate path = .ok target) : namesOf target = spot files.here path := by
  have walked := walk_of_locate led
  rw [Fault.untilNul_of_free free] at walked
  exact namesOf_of_walk walked

/-- A path behind another leads on from where that leads. -/
theorem spot_of_behind {base path : String} {names : List String}
    (behind : Path.Behind base path names) (undotted : ∀ name ∈ names, name ≠ "." ∧ name ≠ "..")
    (here : List String) : spot here path = spot here base ++ names := by
  rw [spot, behind.absolute, behind.names_eq, reach_append, reach_of_plain _ undotted]
  rfl

/-- Making the way adds directories on it. -/
theorem widens_makeWay (sound : files.Sound) {here : List String} (directory : files.IsDirectory here)
    (names : List String) :
    Widens (fun other => ∃ way, way <+: names ∧ other = reach here way) (fun _ => False) files
      (makeWay here names files).2 := by
  have after {here next rest : List String} {name : String} (stepped : step here name = next)
      (other : List String) : (∃ way, way <+: rest ∧ other = reach next way) →
        ∃ way, way <+: name :: rest ∧ other = reach here way := by
    rintro ⟨way, first, rfl⟩
    exact ⟨name :: way, List.cons_prefix_cons.mpr ⟨rfl, first⟩, by rw [← stepped]; rfl⟩
  induction names generalizing here files with
  | nil => exact .refl sound
  | cons name rest ih =>
      by_cases single : name = "."
      · rw [single, makeWay_dot]
        exact (ih sound directory).mono (after (if_pos rfl)) fun _ => id
      by_cases double : name = ".."
      · rw [double, makeWay_dots]
        exact (ih sound (sound.dropLast directory)).mono (after rfl) fun _ => id
      have plain : step here name = here ++ [name] := step_of_plain here single double
      by_cases long : nameLimit < name.utf8ByteSize
      · rw [makeWay_long single double long]
        exact .refl sound
      rcases held : files.entries[here ++ [name]]? with _ | _ | number
      · have made := grown_insert sound directory held
        have entry : (files.entries.insert (here ++ [name]) .directory)[here ++ [name]]? =
            some .directory := Std.ExtTreeMap.getElem?_insert_self
        rw [makeWay_vacant single double long held]
        refine Widens.trans ?_ ((ih made.sound (.inr entry)).mono (after plain) fun _ => id)
        refine ⟨made.sound, rfl, fun other => ?_, fun _ _ _ _ => rfl⟩
        rw [getElem?_insert_entry]
        by_cases same : here ++ [name] = other
        · right
          refine ⟨same ▸ held, [name], by simp, ?_⟩
          rw [← same, ← plain]
          rfl
        · rw [if_neg same]
          exact .inl rfl
      · rw [makeWay_into single double long held]
        exact (ih sound (.inr held)).mono (after plain) fun _ => id
      · rw [makeWay_onto single double long held]
        exact .refl sound

/-- Making a directory adds directories on the way there. -/
theorem widens_createDirectories (sound : files.Sound) {path : String} (free : '\x00' ∉ path.toList) :
    Widens (OnWay files.here path) (fun _ => False) files ((createDirectories path).run files).2 := by
  have stays (some : files.find? path ≠ .ok none) : ((createDirectories path).run files).2 = files := by
    unfold createDirectories Action.of Action.run
    by_cases empty : path = ""
    · simp only [empty, ↓reduceIte]
    · simp only [empty, ↓reduceIte]
      rcases found : files.find? path with reason | _ | _ | _ | _
      · rfl
      · exact absurd found some
      · rfl
      · rfl
      · rfl
  by_cases found : files.find? path = .ok none
  · rcases run_createDirectories found with ⟨fault, failed⟩ | made
    · rw [failed]
      exact .refl sound
    · have later := made.later
      rw [Fault.untilNul_of_free free] at later
      rw [later]
      exact widens_makeWay sound (sound.startOf path) (Path.names path)
  · rw [stays found]
    exact .refl sound

end ChunkTree.FileSystem
