import ChunkTree.OutputFile
import ChunkTree.Proofs.Routes

/-!
# What changes a file system

A file system in order stays so when a vacant name in a directory is given to something new
(`FileSystem.Sound.insert`) or a file loses its name (`FileSystem.Sound.erase`).  Opening a file for
writing gives its path that file, empty, and leaves all else (`FileSystem.opens_of_create`); making
directories adds some where nothing was (`FileSystem.grown_makeWay`).
-/

namespace ChunkTree.FileSystem

variable {files later : FileSystem}

theorem content_setContent_of_ne (files : FileSystem) {number other : Nat}
    (apart : number ≠ other) (bytes : Bytes) :
    (files.setContent number bytes).content other = files.content other := by
  simp [content, setContent, Std.ExtTreeMap.getD_insert, apart]

/-- The path leads to a file with this content. -/
def Holds (files : FileSystem) (path : String) (content : Bytes) : Prop :=
  ∃ names number, files.locate path = .ok (.file names number) ∧ files.content number = content

theorem Holds.read_eq {path : String} {content : Bytes} (holds : files.Holds path content) :
    files.read path = content := by
  obtain ⟨names, number, led, same⟩ := holds
  rw [FileSystem.read, led]
  exact same

/-- Where paths start and the entries alone decide where paths lead. -/
theorem locate_congr (here : later.here = files.here) (entries : later.entries = files.entries)
    (path : String) : later.locate path = files.locate path := by
  have start : later.startOf (Fault.untilNul path) = files.startOf (Fault.untilNul path) := by
    rw [startOf, startOf, here]
  simp only [locate, start, walk_congr entries]

/-- Only the bytes of one file are different. -/
structure Rewrites (number : Nat) (files later : FileSystem) : Prop where
  here : later.here = files.here
  entries : later.entries = files.entries
  next : later.next = files.next
  contents : ∀ other, other ≠ number → later.content other = files.content other

theorem Rewrites.refl (number : Nat) (files : FileSystem) : files.Rewrites number files :=
  ⟨rfl, rfl, rfl, fun _ _ => rfl⟩

theorem Rewrites.trans {last : FileSystem} {number : Nat} (first : files.Rewrites number later)
    (second : later.Rewrites number last) : files.Rewrites number last where
  here := second.here.trans first.here
  entries := second.entries.trans first.entries
  next := second.next.trans first.next
  contents other apart := (second.contents other apart).trans (first.contents other apart)

theorem rewrites_setContent (files : FileSystem) (number : Nat) (bytes : Bytes) :
    files.Rewrites number (files.setContent number bytes) :=
  ⟨rfl, rfl, rfl, fun _ apart => content_setContent_of_ne files apart.symm bytes⟩

theorem Rewrites.locate_eq {number : Nat} (rewrites : files.Rewrites number later) (path : String) :
    later.locate path = files.locate path :=
  locate_congr rewrites.here rewrites.entries path

theorem Rewrites.sound {number : Nat} (rewrites : files.Rewrites number later)
    (sound : files.Sound) : later.Sound := by
  have same := rewrites.entries
  constructor
  · rw [IsDirectory, rewrites.here, same]
    exact sound.here
  · intro names name
    rw [IsDirectory, same]
    exact sound.nested names name
  · intro names number
    rw [same, rewrites.next]
    exact sound.fresh names number
  · intro names other number
    rw [same]
    exact sound.unique names other number

/-- Something that has no name yet is given a vacant name in a directory. -/
theorem Sound.insert (sound : files.Sound) {above : List String} {name : String} {entry : Entry}
    {next : Nat} (contents : Std.ExtTreeMap Nat Bytes) (directory : files.IsDirectory above)
    (vacant : files.entries[above ++ [name]]? = none) (more : files.next ≤ next)
    (unnamed : ∀ number, entry = .file number → number < next ∧
      ∀ other : List String, files.entries[other]? ≠ some (.file number)) :
    Sound ⟨files.here, files.entries.insert (above ++ [name]) entry, contents, next⟩ where
  here := by
    refine sound.here.imp id fun found => ?_
    rw [getElem?_insert_entry, if_neg (fun same => by rw [same, found] at vacant; cases vacant)]
    exact found
  nested := by
    intro names last held
    have kept : files.IsDirectory names → IsDirectory
        ⟨files.here, files.entries.insert (above ++ [name]) entry, contents, next⟩ names := by
      refine Or.imp id fun found => ?_
      rw [getElem?_insert_entry, if_neg (fun same => by rw [same, found] at vacant; cases vacant)]
      exact found
    rw [getElem?_insert_entry] at held
    by_cases new : above ++ [name] = names ++ [last]
    · rw [← (List.append_inj' new rfl).1]
      exact (List.append_inj' new rfl).1 ▸ kept ((List.append_inj' new rfl).1 ▸ directory)
    · rw [if_neg new] at held
      exact kept (sound.nested names last held)
  fresh := by
    intro names number held
    rw [getElem?_insert_entry] at held
    by_cases new : above ++ [name] = names
    · rw [if_pos new, Option.some.injEq] at held
      exact (unnamed number held).1
    · rw [if_neg new] at held
      exact Nat.lt_of_lt_of_le (sound.fresh names number held) more
  unique := by
    intro names other number held otherHeld
    rw [getElem?_insert_entry] at held otherHeld
    by_cases new : above ++ [name] = names
    · rw [if_pos new, Option.some.injEq] at held
      by_cases otherNew : above ++ [name] = other
      · rw [← new, otherNew]
      · rw [if_neg otherNew] at otherHeld
        exact absurd otherHeld ((unnamed number held).2 other)
    · rw [if_neg new] at held
      by_cases otherNew : above ++ [name] = other
      · rw [if_pos otherNew, Option.some.injEq] at otherHeld
        exact absurd held ((unnamed number otherHeld).2 names)
      · rw [if_neg otherNew] at otherHeld
        exact sound.unique names other number held otherHeld

/-- A file loses its name. -/
theorem Sound.erase (sound : files.Sound) {names : List String} {number : Nat}
    (named : files.entries[names]? = some (.file number)) :
    Sound { files with entries := files.entries.erase names } := by
  have kept : ∀ other, files.IsDirectory other →
      IsDirectory { files with entries := files.entries.erase names } other := by
    intro other
    refine Or.imp id fun found => ?_
    rw [getElem?_erase_entry, if_neg (fun same => by rw [same, found] at named; cases named)]
    exact found
  have held : ∀ (other : List String) (entry : Entry),
      (files.entries.erase names)[other]? = .some entry → files.entries[other]? = .some entry := by
    intro other entry found
    rw [getElem?_erase_entry] at found
    by_cases same : names = other
    · rw [if_pos same] at found
      cases found
    · rwa [if_neg same] at found
  constructor
  · exact kept _ sound.here
  · intro above name found
    obtain ⟨entry, found⟩ := Option.ne_none_iff_exists'.mp found
    apply kept
    apply sound.nested above name
    rw [held _ _ found]
    exact Option.some_ne_none _
  · intro other otherNumber found
    exact sound.fresh other otherNumber (held _ _ found)
  · intro one other both found otherFound
    exact sound.unique one other both (held _ _ found) (held _ _ otherFound)

theorem walk_of_locate {path : String} {target : Target} (led : files.locate path = .ok target) :
    files.walk (Path.endsInSlash (Fault.untilNul path)) (files.startOf (Fault.untilNul path))
      (Path.names (Fault.untilNul path)) = .ok target := by
  unfold locate at led
  simp only at led
  by_cases empty : Fault.untilNul path = ""
  · rw [if_pos empty] at led
    cases led
  · by_cases long : pathLimit ≤ (Fault.untilNul path).utf8ByteSize
    · rw [if_neg empty, if_pos long] at led
      cases led
    · rwa [if_neg empty, if_neg long] at led

theorem locate_of_locate {path : String} {target other : Target}
    (led : files.locate path = .ok target)
    (leads : later.walk (Path.endsInSlash (Fault.untilNul path))
      (later.startOf (Fault.untilNul path)) (Path.names (Fault.untilNul path)) = .ok other) :
    later.locate path = .ok other := by
  unfold locate at led ⊢
  simp only at led ⊢
  by_cases empty : Fault.untilNul path = ""
  · rw [if_pos empty] at led
    cases led
  · by_cases long : pathLimit ≤ (Fault.untilNul path).utf8ByteSize
    · rw [if_neg empty, if_pos long] at led
      cases led
    · rwa [if_neg empty, if_neg long]

/-- A path that leads to a file still does when more is there. -/
theorem locate_file_of_keeps (keeps : files.KeepsDirectories later) {path : String}
    {names : List String} {number : Nat} (led : files.locate path = .ok (.file names number))
    (kept : later.entries[names]? = some (.file number)) :
    later.locate path = .ok (.file names number) := by
  refine locate_of_locate led ?_
  rw [keeps.startOf]
  exact walk_file_of_keeps keeps (walk_of_locate led) kept

theorem locate_of_find? {path : String} {target : Target} (found : files.find? path = .ok (some target)) :
    files.locate path = .ok target := by
  rw [find?] at found
  rcases led : files.locate path with reason | (names | ⟨names, number⟩ | names)
  · rw [led] at found
    cases reason with
    | _ => cases found
  · rw [led] at found
    cases found
    rfl
  · rw [led] at found
    cases found
    rfl
  · rw [led] at found
    cases found

theorem placed_of_locate (sound : files.Sound) {path : String} {target : Target}
    (led : files.locate path = .ok target) : files.Placed target :=
  placed_of_walk sound (sound.startOf _) (walk_of_locate led)

/-- The path leads to this file, which is empty; every other name and every other file is as before. -/
structure Opens (files later : FileSystem) (path : String) (names : List String) (number : Nat) :
    Prop where
  sound : later.Sound
  here : later.here = files.here
  led : files.locate path = .ok (.file names number) ∨ files.locate path = .ok (.vacant names)
  leads : later.locate path = .ok (.file names number)
  entry : later.entries[names]? = some (.file number)
  others : ∀ other : List String, other ≠ names → later.entries[other]? = files.entries[other]?
  kept : files.entries[names]? ≠ none → files.entries[names]? = some (.file number)
  empty : later.content number = #[]
  contents : ∀ other, other ≠ number → later.content other = files.content other

theorem opens_of_create (sound : files.Sound) {path : String} {number : Nat}
    (created : files.create path = .ok (number, later)) :
    ∃ names, files.Opens later path names number := by
  unfold create openFor at created
  rcases led : files.locate path with reason | (names | ⟨names, held⟩ | names)
  · rw [led] at created
    cases created
  · rw [led] at created
    cases created
  · simp only [led, bind, Except.bind, Bool.false_eq_true, ↓reduceIte] at created
    obtain ⟨rfl, rfl⟩ := Prod.mk.inj (Except.ok.inj created)
    have entry : files.entries[names]? = some (.file held) := placed_of_locate sound led
    have rewrites := files.rewrites_setContent held #[]
    exact ⟨names, rewrites.sound sound, rfl, .inl led, (rewrites.locate_eq path).trans led, entry,
      fun _ _ => rfl, fun _ => entry, content_setContent .., rewrites.contents⟩
  · rw [led] at created
    by_cases slash : Path.endsInSlash (Fault.untilNul path)
    · simp only [bind, Except.bind, slash, ↓reduceIte] at created
      cases created
    · simp only [bind, Except.bind, slash, Bool.false_eq_true, ↓reduceIte] at created
      obtain ⟨rfl, rfl⟩ := Prod.mk.inj (Except.ok.inj created)
      obtain ⟨vacant, above, name, rfl, directory⟩ := placed_of_locate sound led
      have new : (files.entries.insert (above ++ [name]) (.file files.next))[above ++ [name]]? =
          some (.file files.next) := by
        rw [getElem?_insert_entry, if_pos rfl]
      have others : ∀ other : List String, other ≠ above ++ [name] →
          (files.entries.insert (above ++ [name]) (.file files.next))[other]? =
            files.entries[other]? := by
        intro other apart
        rw [getElem?_insert_entry, if_neg apart.symm]
      refine ⟨above ++ [name], ?_, rfl, .inr led, ?_, new, others, fun held => absurd vacant held,
        ?_, ?_⟩
      · apply sound.insert _ directory vacant (Nat.le_succ _)
        intro number same
        cases same
        refine ⟨Nat.lt_succ_self _, fun other held => ?_⟩
        exact absurd (sound.fresh other _ held) (Nat.lt_irrefl _)
      · refine locate_of_locate led ?_
        apply walk_insert_of_vacant (Bool.eq_false_iff.mpr slash) (walk_of_locate led) new
        intro other held
        exact others other fun same => held (same ▸ vacant)
      · simp [content]
      · intro other apart
        simp [content, Std.ExtTreeMap.getD_insert, apart.symm]

/-- Opening a file to add to it changes nothing, or makes the file as opening it for new content does. -/
theorem reopen_cases {path : String} {number : Nat}
    (reopened : files.reopen path = .ok (number, later)) :
    later = files ∧ (∃ names, files.locate path = .ok (.file names number)) ∨
      (∃ names, files.locate path = .ok (.vacant names)) ∧
        files.create path = .ok (number, later) := by
  unfold reopen openFor at reopened
  unfold create openFor
  rcases led : files.locate path with reason | (names | ⟨names, held⟩ | names)
  · rw [led] at reopened
    cases reopened
  · rw [led] at reopened
    cases reopened
  · rw [led] at reopened
    cases reopened
    exact .inl ⟨rfl, names, rfl⟩
  · rw [led] at reopened
    exact .inr ⟨⟨names, rfl⟩, reopened⟩

/-- A file that is moved to a vacant name has that name and no other. -/
theorem moved_of_rename (sound : files.Sound) {source target : String} {old new : List String}
    {number : Nat} (found : files.locate source = .ok (.file old number))
    (free : files.locate target = .ok (.vacant new))
    (plain : Path.endsInSlash (Fault.untilNul target) = false) :
    files.rename source target =
        .ok { files with entries := (files.entries.erase old).insert new (.file number) } ∧
      Sound { files with entries := (files.entries.erase old).insert new (.file number) } := by
  have entry : files.entries[old]? = some (.file number) := placed_of_locate sound found
  obtain ⟨vacant, above, name, rfl, directory⟩ := placed_of_locate sound free
  constructor
  · unfold rename
    simp only [found, free, bind, Except.bind, plain, Bool.false_eq_true, ↓reduceIte]
  · have kept : ∀ other : List String, other ≠ old →
        (files.entries.erase old)[other]? = files.entries[other]? := by
      intro other apart
      rw [getElem?_erase_entry, if_neg (Ne.symm apart)]
    apply (sound.erase entry).insert files.contents _ _ (Nat.le_refl _)
    · intro other same
      cases same
      refine ⟨sound.fresh old number entry, fun other held => ?_⟩
      rw [getElem?_erase_entry] at held
      by_cases same : old = other
      · rw [if_pos same] at held
        cases held
      · rw [if_neg same] at held
        exact same (sound.unique old other number entry held)
    · refine directory.imp id fun held => ?_
      rw [kept above fun same => by rw [same, entry] at held; cases held]
      exact held
    · rw [getElem?_erase_entry, vacant]
      exact ite_self _

/-- Directories with no more names than this were made where nothing was. -/
structure Grown (bound : Nat) (files later : FileSystem) : Prop where
  sound : later.Sound
  here : later.here = files.here
  contents : later.contents = files.contents
  next : later.next = files.next
  entries : ∀ other : List String, later.entries[other]? = files.entries[other]? ∨
    files.entries[other]? = none ∧ later.entries[other]? = some .directory ∧ other.length ≤ bound

theorem Grown.refl (sound : files.Sound) (bound : Nat) : files.Grown bound files :=
  ⟨sound, rfl, rfl, rfl, fun _ => .inl rfl⟩

theorem Grown.kept {bound : Nat} (grown : Grown bound files later) {names : List String}
    {entry : Entry} (held : files.entries[names]? = some entry) :
    later.entries[names]? = some entry := by
  rcases grown.entries names with same | ⟨vacant, -⟩
  · rw [same, held]
  · rw [held] at vacant
    cases vacant

theorem Grown.keepsDirectories {bound : Nat} (grown : Grown bound files later) :
    files.KeepsDirectories later :=
  ⟨grown.here, fun _ held => grown.kept held⟩

theorem Grown.trans {bound : Nat} {last : FileSystem} (first : Grown bound files later)
    (second : Grown bound later last) : Grown bound files last where
  sound := second.sound
  here := second.here.trans first.here
  contents := second.contents.trans first.contents
  next := second.next.trans first.next
  entries := by
    intro other
    rcases first.entries other with same | ⟨vacant, made, short⟩
    · rcases second.entries other with again | ⟨vacant, made, short⟩
      · exact .inl (again.trans same)
      · exact .inr ⟨same ▸ vacant, made, short⟩
    · exact .inr ⟨vacant, second.kept made, short⟩

theorem Grown.mono {bound more : Nat} (grown : Grown bound files later) (order : bound ≤ more) :
    Grown more files later :=
  { grown with
    entries := fun other => (grown.entries other).imp id fun ⟨vacant, made, short⟩ =>
      ⟨vacant, made, Nat.le_trans short order⟩ }

theorem Grown.content {bound : Nat} (grown : Grown bound files later) (number : Nat) :
    later.content number = files.content number := by
  rw [FileSystem.content, FileSystem.content, grown.contents]

/-- A directory is made under a vacant name. -/
theorem grown_insert (sound : files.Sound) {above : List String} {name : String}
    (directory : files.IsDirectory above) (vacant : files.entries[above ++ [name]]? = none) :
    Grown (above.length + 1) files
      { files with entries := files.entries.insert (above ++ [name]) .directory } where
  sound := sound.insert files.contents directory vacant (Nat.le_refl _) (fun _ never => by cases never)
  here := rfl
  contents := rfl
  next := rfl
  entries := by
    intro other
    rw [getElem?_insert_entry]
    by_cases new : above ++ [name] = other
    · refine .inr ⟨new ▸ vacant, if_pos new, ?_⟩
      exact Nat.le_of_eq (by rw [← new, List.length_append, List.length_singleton])
    · exact .inl (if_neg new)

section Steps

variable {here rest : List String} {name : String}

theorem makeWay_dot (files : FileSystem) :
    makeWay here ("." :: rest) files = makeWay here rest files := by
  rw [makeWay, if_pos rfl]

theorem makeWay_dots (files : FileSystem) :
    makeWay here (".." :: rest) files = makeWay here.dropLast rest files := by
  rw [makeWay, if_neg (by decide), if_pos rfl]

variable (single : name ≠ ".") (double : name ≠ "..")
include single double

theorem makeWay_long (long : nameLimit < name.utf8ByteSize) :
    makeWay here (name :: rest) files = (.error .nameTooLong, files) := by
  rw [makeWay, if_neg single, if_neg double, if_pos long]

variable (short : ¬ nameLimit < name.utf8ByteSize)
include short

theorem makeWay_into (entry : files.entries[here ++ [name]]? = some .directory) :
    makeWay here (name :: rest) files = makeWay (here ++ [name]) rest files := by
  rw [makeWay, if_neg single, if_neg double, if_neg short]
  simp only [entry]

theorem makeWay_onto {number : Nat} (entry : files.entries[here ++ [name]]? = some (.file number)) :
    makeWay here (name :: rest) files = (.error .taken, files) := by
  rw [makeWay, if_neg single, if_neg double, if_neg short]
  simp only [entry]

theorem makeWay_vacant (entry : files.entries[here ++ [name]]? = none) :
    makeWay here (name :: rest) files = makeWay (here ++ [name]) rest
      { files with entries := files.entries.insert (here ++ [name]) .directory } := by
  rw [makeWay, if_neg single, if_neg double, if_neg short]
  simp only [entry]

end Steps

/-- Making the way adds directories, and at the end there is one where the names lead. -/
theorem grown_makeWay (sound : files.Sound) {here : List String} (directory : files.IsDirectory here)
    (names : List String) :
    Grown (here.length + names.length) files (makeWay here names files).2 ∧
      ((makeWay here names files).1 = .ok () →
        ∃ root, (makeWay here names files).2.walk true here names = .ok (.directory root)) := by
  induction names generalizing here files with
  | nil => exact ⟨Grown.refl sound _, fun _ => ⟨here, rfl⟩⟩
  | cons name rest ih =>
      rw [List.length_cons]
      have deeper : (here ++ [name]).length = here.length + 1 := by simp
      by_cases single : name = "."
      · rw [single, makeWay_dot, walk_dot]
        obtain ⟨grown, led⟩ := ih sound directory
        exact ⟨grown.mono (by omega), led⟩
      by_cases double : name = ".."
      · rw [double, makeWay_dots, walk_dots]
        obtain ⟨grown, led⟩ := ih sound (sound.dropLast directory)
        exact ⟨grown.mono (by rw [List.length_dropLast]; omega), led⟩
      by_cases long : nameLimit < name.utf8ByteSize
      · rw [makeWay_long single double long]
        exact ⟨Grown.refl sound _, fun never => by cases never⟩
      rcases held : files.entries[here ++ [name]]? with _ | _ | number
      · have made := grown_insert sound directory held
        have entry : (files.entries.insert (here ++ [name]) .directory)[here ++ [name]]? =
            some .directory := Std.ExtTreeMap.getElem?_insert_self
        obtain ⟨grown, led⟩ := ih made.sound (.inr entry)
        rw [makeWay_vacant single double long held, walk_into single double long (grown.kept entry)]
        exact ⟨(made.mono (by omega)).trans (grown.mono (by omega)), led⟩
      · obtain ⟨grown, led⟩ := ih sound (.inr held)
        rw [makeWay_into single double long held, walk_into single double long (grown.kept held)]
        exact ⟨grown.mono (by omega), led⟩
      · rw [makeWay_onto single double long held]
        exact ⟨Grown.refl sound _, fun never => by cases never⟩

/-- Names behind a directory that is there are made from there. -/
theorem makeWay_append {here names root : List String}
    (led : files.walk true here names = .ok (.directory root)) (more : List String) :
    makeWay here (names ++ more) files = makeWay root more files := by
  fun_induction files.walk true here names with
  | case1 here =>
      cases led
      rfl
  | case2 here rest ih =>
      rw [List.cons_append, makeWay_dot]
      exact ih led
  | case3 here rest _ ih =>
      rw [List.cons_append, makeWay_dots]
      exact ih led
  | case4 here name rest _ _ long => cases led
  | case5 here name rest single double short next entry ih =>
      rw [List.cons_append, makeWay_into single double short entry]
      exact ih led
  | case6 here name rest _ _ _ next number entry last => cases led
  | case7 here name rest _ _ _ next number entry more => cases led
  | case8 here name _ _ _ next entry => cases led
  | case9 here name rest _ _ _ next entry more => cases led

/-- A file on the way is in the way of making directories behind it. -/
theorem makeWay_of_notDirectory {here names : List String}
    (blocked : files.walk true here names = .error .notDirectory) (more : List String) :
    (makeWay here (names ++ more) files).2 = files := by
  fun_induction files.walk true here names with
  | case1 here => cases blocked
  | case2 here rest ih =>
      rw [List.cons_append, makeWay_dot]
      exact ih blocked
  | case3 here rest _ ih =>
      rw [List.cons_append, makeWay_dots]
      exact ih blocked
  | case4 here name rest _ _ long => cases blocked
  | case5 here name rest single double short next entry ih =>
      rw [List.cons_append, makeWay_into single double short entry]
      exact ih blocked
  | case6 here name rest _ _ _ next number entry last => cases blocked
  | case7 here name rest single double short next number entry _ =>
      rw [List.cons_append, makeWay_onto single double short entry]
  | case8 here name _ _ _ next entry => cases blocked
  | case9 here name rest _ _ _ next entry more => cases blocked

theorem run_present (path : String) (files : FileSystem) :
    (present path).run files = match files.find? path with
      | .ok target => (.ok target.isSome, files)
      | .error reason => (.error (.fileSystem "status" reason path), files) :=
  rfl

/-- A directory is made, if at all, by making the way to it. -/
theorem makeMissing_cases (path : String) (files : FileSystem) :
    (∃ reason, makeMissing path files = (.error reason, files)) ∨
      Path.names (Fault.untilNul path) ≠ [] ∧ makeMissing path files =
        makeWay (files.startOf path) (Path.names (Fault.untilNul path)) files := by
  unfold makeMissing
  simp only
  cases files.countMissing (files.startOf path) (Path.names path) with
  | error reason => exact .inl ⟨reason, rfl⟩
  | ok count =>
      by_cases many : makeLimit < count
      · exact .inl ⟨.nameTooLong, if_pos many⟩
      · by_cases none : Path.names (Fault.untilNul path) = []
        · exact .inl ⟨.missing, by simp only [many, none, ↓reduceIte]⟩
        · exact .inr ⟨none, by simp only [many, none, ↓reduceIte]⟩

/-- The way to the directory of a path was made, in all if nothing went wrong. -/
structure Made (path : String) (files : FileSystem) (ran : Except Fault Unit × FileSystem) : Prop where
  nowhere : files.find? path = .ok none
  named : Path.names (Fault.untilNul path) ≠ []
  later : ran.2 = (makeWay (files.startOf path) (Path.names (Fault.untilNul path)) files).2
  whole : ran.1 = .ok () →
    (makeWay (files.startOf path) (Path.names (Fault.untilNul path)) files).1 = .ok ()

/-- What leads nowhere is made, or nothing changes and that is a fault. -/
theorem run_createDirectories {path : String} {files : FileSystem}
    (nowhere : files.find? path = .ok none) :
    (∃ fault, (createDirectories path).run files = (.error fault, files)) ∨
      Made path files ((createDirectories path).run files) := by
  unfold createDirectories Action.of Action.run
  simp only [nowhere]
  by_cases empty : path = ""
  · left
    exact ⟨.fileSystem "cannot create directories" .invalid path, by simp only [empty, ↓reduceIte]⟩
  · simp only [empty, ↓reduceIte]
    rcases makeMissing_cases path files with ⟨reason, failed⟩ | ⟨named, made⟩
    · left
      exact ⟨_, by rw [failed]⟩
    · right
      rcases way : makeWay (files.startOf path) (Path.names (Fault.untilNul path)) files with
        ⟨reason | done, after⟩
      · exact ⟨nowhere, named, by rw [made, way], by rw [made, way]; nofun⟩
      · exact ⟨nowhere, named, by rw [made, way], by rw [way]; exact fun _ => rfl⟩

/-- After making sure of a directory there was something at its path, or the way to it was made, or
there is a fault. -/
theorem run_ensureDirectory (path : String) (files : FileSystem) :
    ((ensureDirectory path).run files).2 = files ∧
        (((ensureDirectory path).run files).1 = .ok () →
          ∃ target, files.find? path = .ok (some target)) ∨
      Made path files ((ensureDirectory path).run files) := by
  rw [ensureDirectory, Action.run_bind, run_present]
  rcases found : files.find? path with reason | _ | target
  · exact .inl ⟨rfl, nofun⟩
  · rcases run_createDirectories found with ⟨fault, failed⟩ | made
    · left
      change ((createDirectories path).run files).2 = files ∧
        (((createDirectories path).run files).1 = .ok () → _)
      rw [failed]
      exact ⟨rfl, nofun⟩
    · exact .inr made
  · exact .inl ⟨rfl, fun _ => ⟨target, rfl⟩⟩

end ChunkTree.FileSystem

namespace ChunkTree.OutputFile

open FileSystem (Rewrites)

/-- Writing to an open file writes to no other. -/
theorem rewrites_write (file : OutputFile) (files : FileSystem) (bytes : Bytes) :
    files.Rewrites file.number (file.write files bytes).1 := by
  rw [write]
  by_cases waits : bytes.size < longRun ∧ (file.waiting ++ bytes).size < space
  · simp only [waits, and_self, ↓reduceIte]
    exact Rewrites.refl _ files
  · simp only [waits, ↓reduceIte]
    exact FileSystem.rewrites_setContent files _ _

/-- Closing an open file writes to no other. -/
theorem rewrites_close (file : OutputFile) (files : FileSystem) :
    files.Rewrites file.number (file.close files) :=
  FileSystem.rewrites_setContent files _ _

/-- A run of bytes that is taken by a file is in it when that is closed, if what would not fit does not
wait. -/
theorem content_of_write {files later : FileSystem} {file : OutputFile} {number room : Nat} {bytes : Bytes}
    (wrote : (opened number (some room)).write files bytes = (later, file, true))
    (fits : bytes.size < longRun → bytes.size ≤ room) :
    (file.close later).content number = files.content number ++ bytes := by
  have nothing : (opened number (some room)).waiting ++ bytes = bytes := Array.empty_append
  have cut : (opened number (some room)).fitting bytes = bytes.extract 0 room := rfl
  have whole (short : bytes.size ≤ room) : bytes.extract 0 room = bytes := by
    rw [← Array.toList_inj, Array.toList_extract, List.extract_eq_take_drop, List.drop_zero,
      Nat.sub_zero]
    exact List.take_of_length_le short
  rw [write] at wrote
  simp only [nothing, cut] at wrote
  by_cases waits : bytes.size < longRun ∧ bytes.size < space
  · rw [if_pos waits] at wrote
    cases wrote
    simp [close, fitting, opened, whole (fits waits.1)]
  · rw [if_neg waits, Prod.mk.injEq, Prod.mk.injEq] at wrote
    obtain ⟨rfl, rfl, taken⟩ := wrote
    have size := of_decide_eq_true taken
    rw [Array.size_extract] at size
    rw [whole (by omega)]
    simp [close, fitting, opened]

end ChunkTree.OutputFile
