import ChunkTree.Log
import ChunkTree.Proofs.FileAdditions

/-!
# Opening and writing logs

Opening a log adds but what is on the way to its file (`Log.widens_openAt`), and what is logged is added
to that file alone (`Log.run_add`).
-/

namespace ChunkTree

open FileSystem (OnWay Widens spot)

/-- The way to the directory of a path is on the way of the path. -/
theorem FileSystem.OnWay.of_parent {here names : List String} {path : String}
    (free : '\x00' ∉ path.toList) (some : Path.parent path ≠ "")
    (onWay : OnWay here (Path.parent path) names) : OnWay here path names := by
  obtain ⟨-, last, behind⟩ := Path.behind_parent free some
  obtain ⟨way, first, rfl⟩ := onWay
  refine ⟨way, ?_, by rw [behind.absolute]⟩
  rw [behind.names_eq]
  exact first.trans (List.prefix_append _ _)

namespace Log

variable {files later : FileSystem} {path : String} {number : Nat}

theorem widens_createParents (sound : files.Sound) (free : '\x00' ∉ path.toList) :
    Widens (OnWay files.here path) (fun _ => False) files
      ((FileSystem.createParents path).run files).2 := by
  rw [FileSystem.createParents]
  by_cases none : Path.parent path = ""
  · rw [if_pos none]
    exact .refl sound
  · rw [if_neg none]
    have clean := (Path.behind_parent free none).1
    exact (FileSystem.widens_createDirectories sound clean).mono (fun _ => .of_parent free none)
      fun _ => id

/-- Opening a log adds but what is on the way to its file. -/
theorem widens_openAt (sound : files.Sound) (free : '\x00' ∉ path.toList) :
    Widens (OnWay files.here path) (fun _ => False) files ((openAt path).run files).2 ∧
      ∀ number, ((openAt path).run files).1 = .ok number →
        ((openAt path).run files).2.entries[spot files.here path]? = some (.file number) := by
  have first := widens_createParents sound free
  rw [openAt, Action.run_bind]
  rcases ran : (FileSystem.createParents path).run files with ⟨fault | _, between⟩
  · rw [ran] at first
    exact ⟨first, fun _ => nofun⟩
  rw [ran] at first
  simp only [Action.run_of] at first ⊢
  rcases reopened : between.reopen path with reason | ⟨number, later⟩
  · exact ⟨first, fun _ => nofun⟩
  simp only
  rcases FileSystem.reopen_cases reopened with ⟨rfl, names, led⟩ | ⟨⟨names, led⟩, created⟩
  · refine ⟨first, fun _ same => ?_⟩
    cases same
    have named : names = spot later.here path := FileSystem.namesOf_of_locate free led
    rw [← first.here, ← named]
    exact FileSystem.placed_of_locate first.sound led
  · obtain ⟨there, opens⟩ := FileSystem.opens_of_create first.sound created
    have same : there = names := by
      rcases opens.led with other | other
      · rw [led] at other
        cases other
      · rw [led] at other
        exact (Target.vacant.inj (Except.ok.inj other)).symm
    subst same
    have named : there = spot files.here path :=
      first.here ▸ FileSystem.namesOf_of_locate free led
    refine ⟨first.trans ((FileSystem.widens_of_opens_vacant first.sound opens led).mono ?_ fun _ => id),
      fun _ same => ?_⟩
    · rintro _ rfl
      rw [named]
      exact FileSystem.onWay_spot _ _
    · cases same
      rw [← named]
      exact opens.entry

/-- What is logged is added to the file of the log, after that was opened if it has to be. -/
theorem run_add (sound : files.Sound) (free : '\x00' ∉ path.toList) (log : Option Nat) (text : Bytes) :
    ∃ between, Widens (OnWay files.here path) (fun _ => False) files between ∧
      ((∃ fault, (add path text).run (files, log) = (.error fault, (between, none)) ∧ log = none) ∨
        ∃ number,
          (add path text).run (files, log) = (.ok (), (between.append number text, some number)) ∧
          (between = files ∧ log = some number ∨
            between.entries[spot files.here path]? = some (.file number))) := by
  rw [add, Action.run_bind, Action.run_state]
  cases log with
  | some number =>
      exact ⟨files, .refl sound, .inr ⟨number, rfl, .inl ⟨rfl, rfl⟩⟩⟩
  | none =>
      obtain ⟨widens, there⟩ := widens_openAt sound free
      simp only
      rw [Action.run_bind, Action.run_within]
      simp only [Place.fst]
      rcases ran : (openAt path).run files with ⟨fault | number, between⟩
      · rw [ran] at widens
        exact ⟨between, widens, .inl ⟨fault, rfl, trivial⟩⟩
      · rw [ran] at widens there
        exact ⟨between, widens, .inr ⟨number, rfl, .inr (there number rfl)⟩⟩

end Log

end ChunkTree
