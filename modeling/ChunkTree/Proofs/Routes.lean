import ChunkTree.FileSystem.Directories
import Mathlib.Data.List.Induction

/-!
# Where paths lead

A file system in order has a directory above every entry, and one name for every file
(`FileSystem.Sound`).  Following names then ends at an entry, or at a vacant name in a directory
(`FileSystem.placed_of_walk`).  What leads to a directory goes on leading there for as long as no
directory goes away (`FileSystem.walk_directory_of_keeps`), and names behind it are followed from
there (`FileSystem.walk_append`).  Whatever names lead to, where that is can be told from the names
(`FileSystem.namesOf_of_walk`).
-/

namespace ChunkTree.FileSystem

theorem getElem?_insert_entry (entries : Std.ExtTreeMap (List String) Entry)
    (names other : List String) (entry : Entry) :
    (entries.insert names entry)[other]? =
      if names = other then some entry else entries[other]? := by
  rw [Std.ExtTreeMap.getElem?_insert]
  simp only [Std.compare_eq_iff_eq]

theorem getElem?_erase_entry (entries : Std.ExtTreeMap (List String) Entry)
    (names other : List String) :
    (entries.erase names)[other]? = if names = other then none else entries[other]? := by
  rw [Std.ExtTreeMap.getElem?_erase]
  simp only [Std.compare_eq_iff_eq]

/-- The names lead to the root or to an entry that is a directory. -/
def IsDirectory (files : FileSystem) (names : List String) : Prop :=
  names = [] ∨ files.entries[names]? = some .directory

/-- Everything stands in a directory, also whoever follows paths, and no file has two names. -/
structure Sound (files : FileSystem) : Prop where
  here : files.IsDirectory files.here
  nested : ∀ (names : List String) (name : String), files.entries[names ++ [name]]? ≠ none →
    files.IsDirectory names
  fresh : ∀ (names : List String) (number : Nat), files.entries[names]? = some (.file number) →
    number < files.next
  unique : ∀ (names other : List String) (number : Nat),
    files.entries[names]? = some (.file number) → files.entries[other]? = some (.file number) →
      names = other

/-- A root without entries is in order. -/
theorem sound_empty : empty.Sound := by
  have nothing (names : List String) :
      (∅ : Std.ExtTreeMap (List String) Entry)[names]? = none := Std.ExtTreeMap.getElem?_empty
  refine ⟨.inl rfl, ?_, ?_, ?_⟩
  · intro names name held
    exact absurd (nothing _) held
  · intro names number held
    cases (nothing names).symm.trans held
  · intro names other number held
    cases (nothing names).symm.trans held

variable {files later : FileSystem}

theorem Sound.dropLast (sound : files.Sound) {names : List String}
    (directory : files.IsDirectory names) : files.IsDirectory names.dropLast := by
  cases names using List.reverseRecOn with
  | nil => exact .inl rfl
  | append_singleton above name =>
      rw [List.dropLast_concat]
      rcases directory with never | entry
      · exact absurd never (by simp)
      · exact sound.nested above name (by rw [entry]; exact Option.some_ne_none _)

/-- What is above an entry, at any distance, is a directory. -/
theorem Sound.above (sound : files.Sound) {names below : List String} (some : below ≠ [])
    (entry : files.entries[names ++ below]? ≠ none) : files.IsDirectory names := by
  induction below using List.reverseRecOn with
  | nil => exact absurd rfl some
  | append_singleton rest name ih =>
      rw [← List.append_assoc] at entry
      by_cases last : rest = []
      · rw [last, List.append_nil] at entry
        exact sound.nested names name entry
      · apply ih last
        rcases sound.nested _ name entry with never | directory
        · exact absurd (List.append_eq_nil_iff.mp never).2 last
        · rw [directory]
          exact Option.some_ne_none _

/-- The directories stay, and whoever follows paths stays where they are. -/
structure KeepsDirectories (files later : FileSystem) : Prop where
  here : later.here = files.here
  directories : ∀ names : List String, files.entries[names]? = some .directory →
    later.entries[names]? = some .directory

theorem KeepsDirectories.isDirectory (keeps : files.KeepsDirectories later) {names : List String}
    (directory : files.IsDirectory names) : later.IsDirectory names :=
  directory.imp id (keeps.directories names)

theorem KeepsDirectories.startOf (keeps : files.KeepsDirectories later) (path : String) :
    later.startOf path = files.startOf path := by
  rw [FileSystem.startOf, FileSystem.startOf, keeps.here]

theorem Sound.startOf (sound : files.Sound) (path : String) :
    files.IsDirectory (files.startOf path) := by
  rw [FileSystem.startOf]
  by_cases absolute : Path.isAbsolute path
  · rw [if_pos absolute]
    exact .inl rfl
  · rw [if_neg absolute]
    exact sound.here

/-- What a target says is so. -/
def Placed (files : FileSystem) : Target → Prop
  | .directory names => files.IsDirectory names
  | .file names number => files.entries[names]? = some (.file number)
  | .vacant names => files.entries[names]? = none ∧
      ∃ above name, names = above ++ [name] ∧ files.IsDirectory above

section Steps

variable {wanted : Bool} {here rest : List String} {name : String}

theorem walk_cons (files : FileSystem) :
    files.walk wanted here (name :: rest) =
      if name = "." then files.walk wanted here rest
      else if name = ".." then files.walk wanted here.dropLast rest
      else if nameLimit < name.utf8ByteSize then .error .nameTooLong
      else match files.entries[here ++ [name]]? with
        | some .directory => files.walk wanted (here ++ [name]) rest
        | some (.file number) =>
          if rest = [] ∧ !wanted then .ok (.file (here ++ [name]) number) else .error .notDirectory
        | none => if rest = [] then .ok (.vacant (here ++ [name])) else .error .missing :=
  rfl

theorem walk_dot (files : FileSystem) :
    files.walk wanted here ("." :: rest) = files.walk wanted here rest := by
  rw [walk_cons, if_pos rfl]

theorem walk_dots (files : FileSystem) :
    files.walk wanted here (".." :: rest) = files.walk wanted here.dropLast rest := by
  rw [walk_cons, if_neg (by decide), if_pos rfl]

variable (single : name ≠ ".") (double : name ≠ "..")
include single double

theorem walk_long (long : nameLimit < name.utf8ByteSize) :
    files.walk wanted here (name :: rest) = .error .nameTooLong := by
  rw [walk_cons, if_neg single, if_neg double, if_pos long]

variable (short : ¬ nameLimit < name.utf8ByteSize)
include short

theorem walk_into (entry : files.entries[here ++ [name]]? = some .directory) :
    files.walk wanted here (name :: rest) = files.walk wanted (here ++ [name]) rest := by
  rw [walk_cons, if_neg single, if_neg double, if_neg short]
  simp only [entry]

theorem walk_onto {number : Nat} (entry : files.entries[here ++ [name]]? = some (.file number)) :
    files.walk wanted here (name :: rest) =
      if rest = [] ∧ !wanted then .ok (.file (here ++ [name]) number) else .error .notDirectory := by
  rw [walk_cons, if_neg single, if_neg double, if_neg short]
  simp only [entry]

theorem walk_vacant (entry : files.entries[here ++ [name]]? = none) :
    files.walk wanted here (name :: rest) =
      if rest = [] then .ok (.vacant (here ++ [name])) else .error .missing := by
  rw [walk_cons, if_neg single, if_neg double, if_neg short]
  simp only [entry]

end Steps

theorem placed_of_walk (sound : files.Sound) {wanted : Bool} {here names : List String}
    {target : Target} (start : files.IsDirectory here)
    (led : files.walk wanted here names = .ok target) : files.Placed target := by
  fun_induction files.walk wanted here names with
  | case1 here =>
      cases led
      exact start
  | case2 here rest ih => exact ih start led
  | case3 here rest _ ih => exact ih (sound.dropLast start) led
  | case4 here name rest _ _ long => cases led
  | case5 here name rest _ _ _ next entry ih => exact ih (.inr entry) led
  | case6 here name rest _ _ _ next number entry last =>
      cases led
      exact entry
  | case7 here name rest _ _ _ next number entry more => cases led
  | case8 here name _ _ _ next entry =>
      cases led
      exact ⟨entry, here, name, rfl, start⟩
  | case9 here name rest _ _ _ next entry more => cases led

/-- The entries alone decide where names lead. -/
theorem walk_congr (same : later.entries = files.entries) (wanted : Bool)
    (here names : List String) : later.walk wanted here names = files.walk wanted here names := by
  rcases files with ⟨filesHere, entries, contents, next⟩
  rcases later with ⟨laterHere, laterEntries, laterContents, laterNext⟩
  cases same
  induction names generalizing here with
  | nil => rfl
  | cons name rest ih =>
      rw [walk_cons, walk_cons]
      simp only [ih]

/-- What leads to a directory still does when more is there. -/
theorem walk_directory_of_keeps (keeps : files.KeepsDirectories later) {wanted : Bool}
    {here names root : List String} (led : files.walk wanted here names = .ok (.directory root)) :
    later.walk wanted here names = .ok (.directory root) := by
  fun_induction files.walk wanted here names with
  | case1 here => exact led
  | case2 here rest ih =>
      rw [walk_dot]
      exact ih led
  | case3 here rest _ ih =>
      rw [walk_dots]
      exact ih led
  | case4 here name rest _ _ long => cases led
  | case5 here name rest single double short next entry ih =>
      rw [walk_into single double short (keeps.directories _ entry)]
      exact ih led
  | case6 here name rest _ _ _ next number entry last => cases led
  | case7 here name rest _ _ _ next number entry more => cases led
  | case8 here name _ _ _ next entry => cases led
  | case9 here name rest _ _ _ next entry more => cases led

/-- What leads to a file still does when more is there. -/
theorem walk_file_of_keeps (keeps : files.KeepsDirectories later) {wanted : Bool}
    {here names other : List String} {number : Nat}
    (led : files.walk wanted here names = .ok (.file other number))
    (kept : later.entries[other]? = some (.file number)) :
    later.walk wanted here names = .ok (.file other number) := by
  fun_induction files.walk wanted here names with
  | case1 here => cases led
  | case2 here rest ih =>
      rw [walk_dot]
      exact ih led
  | case3 here rest _ ih =>
      rw [walk_dots]
      exact ih led
  | case4 here name rest _ _ long => cases led
  | case5 here name rest single double short next entry ih =>
      rw [walk_into single double short (keeps.directories _ entry)]
      exact ih led
  | case6 here name rest single double short next held entry last =>
      obtain ⟨same, rfl⟩ := Target.file.inj (Except.ok.inj led)
      rw [← same] at kept ⊢
      rw [walk_onto single double short kept, if_pos last]
  | case7 here name rest _ _ _ next held entry more => cases led
  | case8 here name _ _ _ next entry => cases led
  | case9 here name rest _ _ _ next entry more => cases led

/-- Asking for a directory is asking for anything and then refusing files. -/
theorem walk_true (files : FileSystem) (here names : List String) :
    files.walk true here names = match files.walk false here names with
      | .ok (.file _ _) => .error .notDirectory
      | other => other := by
  induction names generalizing here with
  | nil => rfl
  | cons name rest ih =>
      by_cases single : name = "."
      · rw [single, walk_dot, walk_dot, ih]
      by_cases double : name = ".."
      · rw [double, walk_dots, walk_dots, ih]
      by_cases long : nameLimit < name.utf8ByteSize
      · rw [walk_long single double long, walk_long single double long]
      rcases held : files.entries[here ++ [name]]? with _ | _ | number
      · rw [walk_vacant single double long held, walk_vacant single double long held]
        by_cases last : rest = []
        · rw [if_pos last]
        · rw [if_neg last]
      · rw [walk_into single double long held, walk_into single double long held, ih]
      · rw [walk_onto single double long held, walk_onto single double long held]
        by_cases last : rest = []
        · simp [last]
        · simp [last]

theorem walk_true_of_directory {wanted : Bool} {here names root : List String}
    (led : files.walk wanted here names = .ok (.directory root)) :
    files.walk true here names = .ok (.directory root) := by
  cases wanted with
  | true => exact led
  | false => rw [walk_true, led]

theorem walk_true_of_file {wanted : Bool} {here names other : List String} {number : Nat}
    (led : files.walk wanted here names = .ok (.file other number)) :
    files.walk true here names = .error .notDirectory := by
  cases wanted with
  | false => rw [walk_true, led]
  | true =>
      rw [walk_true] at led
      rcases free : files.walk false here names with reason | (_ | ⟨_, _⟩ | _)
      · rw [free] at led
        cases led
      · rw [free] at led
        cases led
      · rw [walk_true, free]
      · rw [free] at led
        cases led

theorem walk_of_walk_true {here names root : List String}
    (led : files.walk true here names = .ok (.directory root)) (wanted : Bool) :
    files.walk wanted here names = .ok (.directory root) := by
  cases wanted with
  | true => exact led
  | false =>
      rw [walk_true] at led
      rcases free : files.walk false here names with reason | (_ | ⟨_, _⟩ | _)
      · rw [free] at led
        cases led
      · rw [free] at led
        exact led
      · rw [free] at led
        cases led
      · rw [free] at led
        cases led

/-- Names behind a directory are followed from there. -/
theorem walk_append {here names root : List String}
    (led : files.walk true here names = .ok (.directory root)) (wanted : Bool)
    (more : List String) : files.walk wanted here (names ++ more) = files.walk wanted root more := by
  fun_induction files.walk true here names with
  | case1 here =>
      cases led
      rfl
  | case2 here rest ih =>
      rw [List.cons_append, walk_dot]
      exact ih led
  | case3 here rest _ ih =>
      rw [List.cons_append, walk_dots]
      exact ih led
  | case4 here name rest _ _ long => cases led
  | case5 here name rest single double short next entry ih =>
      rw [List.cons_append, walk_into single double short entry]
      exact ih led
  | case6 here name rest _ _ _ next number entry last => cases led
  | case7 here name rest _ _ _ next number entry more => cases led
  | case8 here name _ _ _ next entry => cases led
  | case9 here name rest _ _ _ next entry more => cases led

/-- A file on the way stops whoever follows names, and also whoever goes on behind them. -/
theorem walk_append_of_notDirectory {here names : List String}
    (blocked : files.walk true here names = .error .notDirectory) (wanted : Bool)
    {more : List String} (some : more ≠ []) :
    files.walk wanted here (names ++ more) = .error .notDirectory := by
  fun_induction files.walk true here names with
  | case1 here => cases blocked
  | case2 here rest ih =>
      rw [List.cons_append, walk_dot]
      exact ih blocked
  | case3 here rest _ ih =>
      rw [List.cons_append, walk_dots]
      exact ih blocked
  | case4 here name rest _ _ long => cases blocked
  | case5 here name rest single double short next entry ih =>
      rw [List.cons_append, walk_into single double short entry]
      exact ih blocked
  | case6 here name rest _ _ _ next number entry last => cases blocked
  | case7 here name rest single double short next number entry _ =>
      rw [List.cons_append, walk_onto single double short entry]
      exact if_neg fun last => some (List.append_eq_nil_iff.mp last.1).2
  | case8 here name _ _ _ next entry => cases blocked
  | case9 here name rest _ _ _ next entry more => cases blocked

/-- A file on the way stays in the way while all entries stay. -/
theorem walk_notDirectory_of_keeps
    (keeps : ∀ (names : List String) (entry : Entry), files.entries[names]? = some entry →
      later.entries[names]? = some entry) {wanted : Bool} {here names : List String}
    (blocked : files.walk wanted here names = .error .notDirectory) :
    later.walk wanted here names = .error .notDirectory := by
  fun_induction files.walk wanted here names with
  | case1 here => cases blocked
  | case2 here rest ih =>
      rw [walk_dot]
      exact ih blocked
  | case3 here rest _ ih =>
      rw [walk_dots]
      exact ih blocked
  | case4 here name rest _ _ long => cases blocked
  | case5 here name rest single double short next entry ih =>
      rw [walk_into single double short (keeps _ _ entry)]
      exact ih blocked
  | case6 here name rest _ _ _ next number entry last => cases blocked
  | case7 here name rest single double short next number entry more =>
      rw [walk_onto single double short (keeps _ _ entry)]
      exact if_neg more
  | case8 here name _ _ _ next entry => cases blocked
  | case9 here name rest _ _ _ next entry more => cases blocked

/-- Where nothing was, there is a file as soon as one has the name. -/
theorem walk_insert_of_vacant {wanted : Bool} {here names vacant : List String} {number : Nat}
    (free : wanted = false) (led : files.walk wanted here names = .ok (.vacant vacant))
    (added : later.entries[vacant]? = some (.file number))
    (others : ∀ other : List String, files.entries[other]? ≠ none → later.entries[other]? = files.entries[other]?) :
    later.walk wanted here names = .ok (.file vacant number) := by
  fun_induction files.walk wanted here names with
  | case1 here => cases led
  | case2 here rest ih =>
      rw [walk_dot]
      exact ih led
  | case3 here rest _ ih =>
      rw [walk_dots]
      exact ih led
  | case4 here name rest _ _ long => cases led
  | case5 here name rest single double short next entry ih =>
      have kept : later.entries[here ++ [name]]? = some .directory := by
        rw [others _ (by rw [entry]; exact Option.some_ne_none _)]
        exact entry
      rw [walk_into single double short kept]
      exact ih led
  | case6 here name rest _ _ _ next number entry last => cases led
  | case7 here name rest _ _ _ next number entry more => cases led
  | case8 here name single double short next entry =>
      have same : here ++ [name] = vacant := Target.vacant.inj (Except.ok.inj led)
      rw [← same] at added ⊢
      rw [walk_onto single double short added, free]
      rfl
  | case9 here name rest _ _ _ next entry more => cases led

/-- The names from the root on of what a target is. -/
def namesOf : Target → List String
  | .directory names | .file names _ | .vacant names => names

section Reach

variable {here names : List String}

/-- Where a name leads from a directory. -/
def step (here : List String) (name : String) : List String :=
  if name = "." then here else if name = ".." then here.dropLast else here ++ [name]

/-- Where names lead from a directory. -/
def reach (here names : List String) : List String := names.foldl step here

theorem step_of_plain (here : List String) {name : String} (single : name ≠ ".")
    (double : name ≠ "..") : step here name = here ++ [name] := by
  rw [step, if_neg single, if_neg double]

theorem reach_append (here names more : List String) :
    reach here (names ++ more) = reach (reach here names) more :=
  List.foldl_append

/-- Names without dots lead below where they start. -/
theorem reach_of_plain (here : List String) (undotted : ∀ name ∈ names, name ≠ "." ∧ name ≠ "..") :
    reach here names = here ++ names := by
  induction names generalizing here with
  | nil => exact (List.append_nil here).symm
  | cons name rest ih =>
      obtain ⟨single, double⟩ := undotted name List.mem_cons_self
      rw [reach, List.foldl_cons, step_of_plain here single double]
      exact (ih _ fun other member => undotted other (List.mem_cons_of_mem _ member)).trans
        (List.append_cons here name rest).symm

/-- Whoever follows names comes where they lead. -/
theorem namesOf_of_walk {wanted : Bool} {target : Target}
    (led : files.walk wanted here names = .ok target) : namesOf target = reach here names := by
  fun_induction files.walk wanted here names with
  | case1 here =>
      cases led
      rfl
  | case2 here rest ih => exact ih led
  | case3 here rest _ ih => exact ih led
  | case4 here name rest _ _ long => cases led
  | case5 here name rest single double _ next entry ih =>
      rw [ih led, reach, reach, List.foldl_cons, step_of_plain here single double]
  | case6 here name rest single double _ next number entry last =>
      cases led
      rw [last.1, reach, List.foldl_cons, step_of_plain here single double]
      rfl
  | case7 here name rest _ _ _ next number entry more => cases led
  | case8 here name single double _ next entry =>
      cases led
      rw [reach, List.foldl_cons, step_of_plain here single double]
      rfl
  | case9 here name rest _ _ _ next entry more => cases led

theorem names_of_walk {wanted : Bool} {target : Target}
    (undotted : ∀ name ∈ names, name ≠ "." ∧ name ≠ "..")
    (led : files.walk wanted here names = .ok target) : namesOf target = here ++ names :=
  (namesOf_of_walk led).trans (reach_of_plain here undotted)

end Reach

/-- Names that each stand for an entry of the directory before them. -/
def Plain (names : List String) : Prop :=
  ∀ name ∈ names, name ≠ "." ∧ name ≠ ".." ∧ name.utf8ByteSize ≤ nameLimit

theorem Plain.tail {name : String} {rest : List String} (plain : Plain (name :: rest)) : Plain rest :=
  (List.forall_mem_cons.mp plain).2

/-- What names with an entry lead to. -/
def targetOf (names : List String) : Entry → Target
  | .directory => .directory names
  | .file number => .file names number

/-- Plain names lead to the entry that they name. -/
theorem walk_of_entry (sound : files.Sound) {here names : List String} (plain : Plain names)
    {entry : Entry} (held : files.entries[here ++ names]? = some entry) (some : names ≠ []) :
    files.walk false here names = .ok (targetOf (here ++ names) entry) := by
  induction names generalizing here with
  | nil => exact absurd rfl some
  | cons name rest ih =>
      obtain ⟨single, double, limit⟩ := plain name List.mem_cons_self
      have short := Nat.not_lt_of_le limit
      rw [List.append_cons here name rest] at held ⊢
      by_cases last : rest = []
      · subst last
        rw [List.append_nil] at held ⊢
        cases entry with
        | directory =>
            rw [walk_into single double short held]
            rfl
        | file number =>
            rw [walk_onto single double short held]
            rfl
      · have directory : files.entries[here ++ [name]]? = .some .directory := by
          rcases sound.above last (by rw [held]; exact Option.some_ne_none _) with never | entry
          · exact absurd never (by simp)
          · exact entry
        rw [walk_into single double short directory]
        exact ih plain.tail held last

/-- Plain names without an entry lead to nothing. -/
theorem walk_of_no_entry {wanted : Bool} {here names : List String} (plain : Plain names)
    (nothing : files.entries[here ++ names]? = none) (some : names ≠ []) :
    files.walk wanted here names = .ok (.vacant (here ++ names)) ∨
      files.walk wanted here names = .error .missing ∨
        files.walk wanted here names = .error .notDirectory := by
  induction names generalizing here with
  | nil => exact absurd rfl some
  | cons name rest ih =>
      obtain ⟨single, double, limit⟩ := plain name List.mem_cons_self
      have short := Nat.not_lt_of_le limit
      rw [List.append_cons here name rest] at nothing ⊢
      by_cases last : rest = []
      · subst last
        rw [List.append_nil] at nothing ⊢
        rw [walk_vacant single double short nothing]
        exact .inl rfl
      · rcases entry : files.entries[here ++ [name]]? with _ | _ | number
        · rw [walk_vacant single double short entry, if_neg last]
          exact .inr (.inl rfl)
        · rw [walk_into single double short entry]
          exact ih plain.tail nothing last
        · rw [walk_onto single double short entry, if_neg fun only => last only.1]
          exact .inr (.inr rfl)

end ChunkTree.FileSystem
