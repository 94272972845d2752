import ChunkTree.Proofs.OpenStores
import ChunkTree.Proofs.StraightBases
import Mathlib.Algebra.GroupWithZero.Nat
import Mathlib.Algebra.Order.BigOperators.Group.List
import Mathlib.Algebra.Order.Group.Nat

/-!
# The way to a directory

Making a way makes directories only at its steps (`FileSystem.entries_makeWay`).  A way skirts a
directory if no step of it is inside (`FileSystem.Skirts`); then it goes on leading there, whatever
happens inside (`FileSystem.walk_of_skirts`).

A directory that was removed can be made again through the path that led there, and all is as it was
(`FileSystem.makeWay_erased`).  The path is too short to name more directories than may be made
(`FileSystem.undotted_le_makeLimit`).
-/

namespace ChunkTree

namespace Path

/-- What is cut apart is as long as before, with the separators. -/
theorem sum_cut (text : List Char) :
    ((cut '/' text).map fun run => (String.ofList run).utf8ByteSize + 1).sum =
      (String.ofList text).utf8ByteSize + 1 := by
  have slash : ('/' : Char).utf8Size = 1 := by decide
  induction text with
  | nil => rfl
  | cons c rest ih =>
      rw [String.ofList_cons, String.utf8ByteSize_append, String.utf8ByteSize_singleton, cut]
      by_cases same : c = '/'
      · rw [if_pos same, List.map_cons, List.sum_cons, ih, same, slash]
        simp
        omega
      · rw [if_neg same]
        rcases runs : cut '/' rest with _ | ⟨first, others⟩
        · exact absurd runs (cut_ne_nil '/' rest)
        · rw [runs, List.map_cons, List.sum_cons] at ih
          rw [List.map_cons, List.sum_cons, String.ofList_cons, String.utf8ByteSize_append,
            String.utf8ByteSize_singleton]
          omega

/-- The names of a path fit in it, each with a slash. -/
theorem sum_names_le (path : String) :
    ((names path).map fun name => name.utf8ByteSize + 1).sum ≤ path.utf8ByteSize + 1 := by
  have whole := sum_cut path.toList
  rw [String.ofList_toList] at whole
  rw [names, List.map_map, ← whole]
  exact (List.filter_sublist.map _).sum_le_sum fun _ _ => Nat.zero_le _

theorem mem_of_mem_cut {separator : Char} {text run : List Char} (member : run ∈ cut separator text)
    {c : Char} (inside : c ∈ run) : c ∈ text := by
  induction text generalizing run with
  | nil =>
      rw [List.mem_singleton.mp member] at inside
      exact inside
  | cons other rest ih =>
      rw [cut] at member
      by_cases same : other = separator
      · rw [if_pos same] at member
        rcases List.mem_cons.mp member with rfl | later
        · exact absurd inside List.not_mem_nil
        · exact List.mem_cons_of_mem _ (ih later inside)
      · rw [if_neg same] at member
        rcases runs : cut separator rest with _ | ⟨first, others⟩
        · exact absurd runs (cut_ne_nil separator rest)
        · rw [runs] at member ih
          rcases List.mem_cons.mp member with rfl | later
          · rcases List.mem_cons.mp inside with rfl | further
            · exact List.mem_cons_self
            · exact List.mem_cons_of_mem _ (ih List.mem_cons_self further)
          · exact List.mem_cons_of_mem _ (ih (List.mem_cons_of_mem _ later) inside)

/-- No name is empty, and a NUL in a name is one in the path. -/
theorem of_mem_names {path name : String} (member : name ∈ names path) :
    name ≠ "" ∧ ('\x00' ∉ path.toList → Fault.untilNul name = name) := by
  obtain ⟨run, inside, rfl⟩ := List.mem_map.mp member
  obtain ⟨among, filled⟩ := List.mem_filter.mp inside
  refine ⟨?_, fun free => Fault.untilNul_of_free fun nul => ?_⟩
  · rw [Ne, String.ofList_eq_empty_iff]
    exact of_decide_eq_true filled
  · rw [String.toList_ofList] at nul
    exact free (mem_of_mem_cut among nul)

end Path

namespace FileSystem

variable {files later : FileSystem} {here names root : List String}

/-- Making a way changes nothing but at its steps. -/
theorem entries_makeWay (here names : List String) (files : FileSystem) (other : List String) :
    (makeWay here names files).2.entries[other]? = files.entries[other]? ∨
      ∃ taken, taken <+: names ∧ taken ≠ [] ∧ other = reach here taken := by
  have further (here : List String) (name : String) (rest : List String) (files : FileSystem)
      (ih : (makeWay (step here name) rest files).2.entries[other]? = files.entries[other]? ∨
        ∃ taken, taken <+: rest ∧ taken ≠ [] ∧ other = reach (step here name) taken) :
      (makeWay (step here name) rest files).2.entries[other]? = files.entries[other]? ∨
        ∃ taken, taken <+: name :: rest ∧ taken ≠ [] ∧ other = reach here taken := by
    rcases ih with same | ⟨taken, before, -, there⟩
    · exact .inl same
    · exact .inr ⟨name :: taken, (List.prefix_cons_inj name).mpr before, List.cons_ne_nil _ _, there⟩
  induction names generalizing here files with
  | nil => exact .inl rfl
  | cons name rest ih =>
      by_cases single : name = "."
      · subst single
        rw [makeWay_dot]
        exact further here "." rest files (ih here files)
      by_cases double : name = ".."
      · subst double
        rw [makeWay_dots]
        exact further here ".." rest files (ih here.dropLast files)
      by_cases long : nameLimit < name.utf8ByteSize
      · rw [makeWay_long single double long]
        exact .inl rfl
      have stepped := step_of_plain here single double
      rcases held : files.entries[here ++ [name]]? with _ | _ | number
      · rw [makeWay_vacant single double long held, ← stepped]
        rcases further here name rest _ (ih (step here name) { files with
          entries := files.entries.insert (step here name) .directory }) with same | there
        · by_cases new : step here name = other
          · exact .inr ⟨[name], ⟨rest, rfl⟩, List.cons_ne_nil _ _, new.symm⟩
          · rw [same, getElem?_insert_entry, if_neg new]
            exact .inl rfl
        · exact .inr there
      · rw [makeWay_into single double long held, ← stepped]
        exact further here name rest files (ih (step here name) files)
      · rw [makeWay_onto single double long held]
        exact .inl rfl

/-- Names strictly below a directory. -/
def Inside (root names : List String) : Prop := ∃ below, below ≠ [] ∧ names = root ++ below

theorem inside_iff {other : List String} : Inside root other ↔ other ≠ root ∧ below root other := by
  rw [below, List.isPrefixOf_iff_prefix]
  constructor
  · rintro ⟨rest, some, rfl⟩
    exact ⟨fun same => some (List.self_eq_append_right.mp same.symm), List.prefix_append root rest⟩
  · rintro ⟨apart, rest, rfl⟩
    refine ⟨rest, fun none => apart ?_, rfl⟩
    rw [none, List.append_nil]

/-- The files without what is inside a directory. -/
def emptied (files : FileSystem) (root : List String) : FileSystem :=
  { files with entries := files.entries.filter fun other _ => other = root ∨ !below root other }

theorem getElem?_emptied (files : FileSystem) {other : List String} :
    (Inside root other → (files.emptied root).entries[other]? = none) ∧
      (¬ Inside root other → (files.emptied root).entries[other]? = files.entries[other]?) := by
  have stays : decide (other = root ∨ !below root other) = true ↔ ¬ Inside root other := by
    rw [inside_iff, decide_eq_true_eq, not_and, Bool.not_eq_true', Bool.not_eq_true]
    exact Decidable.or_iff_not_imp_left
  rw [emptied, Std.ExtTreeMap.getElem?_filter']
  constructor
  · intro inside
    rw [Option.filter_eq_none_iff]
    exact fun _ _ kept => stays.mp kept inside
  · intro outside
    rcases files.entries[other]? with _ | entry
    · rfl
    · exact if_pos (stays.mpr outside)

/-- Nobody stands inside a directory that is emptied, and so all is in order. -/
theorem Sound.emptied (sound : files.Sound) (apart : ¬ Inside root files.here) :
    (files.emptied root).Sound := by
  have kept : ∀ names, ¬ Inside root names → files.IsDirectory names →
      (files.emptied root).IsDirectory names := fun names outside =>
    Or.imp id fun held => ((files.getElem?_emptied).2 outside).trans held
  have old : ∀ (names : List String) (entry : Entry),
      (files.emptied root).entries[names]? = some entry →
        ¬ Inside root names ∧ files.entries[names]? = some entry := by
    intro names entry held
    by_cases inside : Inside root names
    · rw [files.getElem?_emptied.1 inside] at held
      cases held
    · exact ⟨inside, (files.getElem?_emptied.2 inside).symm.trans held⟩
  constructor
  · exact kept _ apart sound.here
  · intro names name there
    obtain ⟨entry, held⟩ := Option.ne_none_iff_exists'.mp there
    obtain ⟨outside, before⟩ := old _ entry held
    apply kept names
    · rintro ⟨below, some, rfl⟩
      exact outside ⟨below ++ [name], List.append_ne_nil_of_left_ne_nil some _, List.append_assoc ..⟩
    · exact sound.nested names name (by rw [before]; exact Option.some_ne_none _)
  · exact fun names number held => sound.fresh names number (old _ _ held).2
  · exact fun names other number held otherHeld =>
      sound.unique names other number (old _ _ held).2 (old _ _ otherHeld).2

/-- The names lead to a directory, and not through what is inside it. -/
structure Skirts (root here names : List String) : Prop where
  arrives : reach here names = root
  outside : ∀ taken, taken <+: names → ¬ Inside root (reach here taken)

theorem Skirts.tail {name : String} {rest : List String}
    (skirts : Skirts root here (name :: rest)) : Skirts root (step here name) rest :=
  ⟨skirts.arrives, fun taken before =>
    skirts.outside (name :: taken) ((List.prefix_cons_inj name).mpr before)⟩

/-- What leads to a directory around its inside still does when the directories outside are there. -/
theorem walk_of_skirts (skirts : Skirts root here names)
    (keeps : ∀ other, ¬ Inside root other → files.entries[other]? = some .directory →
      later.entries[other]? = some .directory) {wanted : Bool}
    (led : files.walk wanted here names = .ok (.directory root)) :
    later.walk wanted here names = .ok (.directory root) := by
  fun_induction files.walk wanted here names with
  | case1 here => exact led
  | case2 here rest ih =>
      rw [walk_dot]
      exact ih skirts.tail led
  | case3 here rest _ ih =>
      rw [walk_dots]
      exact ih skirts.tail led
  | case4 here name rest _ _ long => cases led
  | case5 here name rest single double short next entry ih =>
      have stepped := step_of_plain here single double
      have outside : ¬ Inside root (here ++ [name]) := by
        have first := skirts.outside [name] ⟨rest, rfl⟩
        rwa [reach, List.foldl_cons, stepped] at first
      rw [walk_into single double short (keeps _ outside entry)]
      have tail := skirts.tail
      rw [stepped] at tail
      exact ih tail led
  | case6 here name rest _ _ _ next number entry last => cases led
  | case7 here name rest _ _ _ next number entry more => cases led
  | case8 here name _ _ _ next entry => cases led
  | case9 here name rest _ _ _ next entry more => cases led

section Steps

variable {rest : List String} {name : String}

theorem countMissing_dot (files : FileSystem) :
    files.countMissing here ("." :: rest) = files.countMissing here rest := by
  rw [countMissing, if_pos rfl]

theorem countMissing_dots (files : FileSystem) :
    files.countMissing here (".." :: rest) = files.countMissing here.dropLast rest := by
  rw [countMissing, if_neg (by decide), if_pos rfl]

variable (single : name ≠ ".") (double : name ≠ "..")
  (short : ¬ nameLimit < name.utf8ByteSize) (free : Fault.untilNul name = name)
include single double short free

theorem countMissing_into (entry : files.entries[here ++ [name]]? = some .directory) :
    files.countMissing here (name :: rest) = files.countMissing (here ++ [name]) rest := by
  rw [countMissing, free, if_neg single, if_neg double, if_neg short]
  simp only [entry]

theorem countMissing_vacant (entry : files.entries[here ++ [name]]? = none) :
    files.countMissing here (name :: rest) = .ok (undotted (name :: rest)) := by
  rw [countMissing, free, if_neg single, if_neg double, if_neg short]
  simp only [entry]

end Steps

/-- Names behind a directory that is there are counted from there. -/
theorem countMissing_append (free : ∀ name ∈ names, Fault.untilNul name = name)
    (led : files.walk true here names = .ok (.directory root)) (more : List String) :
    files.countMissing here (names ++ more) = files.countMissing root more := by
  fun_induction files.walk true here names with
  | case1 here =>
      cases led
      rfl
  | case2 here rest ih =>
      rw [List.cons_append, countMissing_dot]
      exact ih (fun name member => free name (List.mem_cons_of_mem _ member)) led
  | case3 here rest _ ih =>
      rw [List.cons_append, countMissing_dots]
      exact ih (fun name member => free name (List.mem_cons_of_mem _ member)) led
  | case4 here name rest _ _ long => cases led
  | case5 here name rest single double short next entry ih =>
      rw [List.cons_append, countMissing_into single double short (free name List.mem_cons_self) entry]
      exact ih (fun name member => free name (List.mem_cons_of_mem _ member)) led
  | case6 here name rest _ _ _ next number entry last => cases led
  | case7 here name rest _ _ _ next number entry more => cases led
  | case8 here name _ _ _ next entry => cases led
  | case9 here name rest _ _ _ next entry more => cases led

/-- Where no file is in the way, plain names are made, and no more directories than there are names. -/
theorem makeWay_of_open (plain : Plain names) (free : ∀ name ∈ names, Fault.untilNul name = name)
    (way : ∀ taken number, taken <+: names → files.entries[here ++ taken]? ≠ some (.file number)) :
    (makeWay here names files).1 = .ok () ∧
      ∃ count, files.countMissing here names = .ok count ∧ count ≤ names.length := by
  induction names generalizing here files with
  | nil => exact ⟨rfl, 0, rfl, Nat.le_refl _⟩
  | cons name rest ih =>
      obtain ⟨single, double, limit⟩ := plain name List.mem_cons_self
      have short := Nat.not_lt_of_le limit
      have whole := free name List.mem_cons_self
      have later : ∀ taken number, taken <+: rest →
          files.entries[here ++ [name] ++ taken]? ≠ some (.file number) := by
        intro taken number before
        rw [List.append_assoc]
        exact way _ number ((List.prefix_cons_inj name).mpr before)
      have freeRest : ∀ other ∈ rest, Fault.untilNul other = other := fun other member =>
        free other (List.mem_cons_of_mem _ member)
      rcases held : files.entries[here ++ [name]]? with _ | _ | number
      · rw [makeWay_vacant single double short held,
          countMissing_vacant single double short whole held]
        refine ⟨(ih plain.tail freeRest ?_).1, _, rfl, List.countP_le_length⟩
        intro taken number before
        rw [getElem?_insert_entry]
        by_cases new : here ++ [name] = here ++ [name] ++ taken
        · rw [if_pos new]
          exact fun never => by cases never
        · rw [if_neg new]
          exact later taken number before
      · obtain ⟨made, count, counted, few⟩ := ih plain.tail freeRest later
        rw [makeWay_into single double short held, countMissing_into single double short whole held]
        exact ⟨made, count, counted, Nat.le_succ_of_le few⟩
      · exact absurd held (way [name] number ⟨rest, rfl⟩)

/-- Plain names lead to the directory that they name. -/
theorem walk_of_isDirectory (sound : files.Sound) (plain : Plain names)
    (directory : files.IsDirectory (here ++ names)) :
    files.walk true here names = .ok (.directory (here ++ names)) := by
  by_cases none : names = []
  · rw [none, List.append_nil]
    rfl
  · rcases directory with never | entry
    · exact absurd (List.append_eq_nil_iff.mp never).2 none
    · exact walk_true_of_directory (walk_of_entry sound plain entry none)

/-- A vacant name in a directory that plain names lead to. -/
theorem walk_of_vacant (sound : files.Sound) {name : String} (plain : Plain (names ++ [name]))
    (directory : files.IsDirectory (here ++ names))
    (vacant : files.entries[here ++ (names ++ [name])]? = none) (wanted : Bool) :
    files.walk wanted here (names ++ [name]) = .ok (.vacant (here ++ (names ++ [name]))) := by
  have led := walk_of_isDirectory sound
    (fun other member => plain other (List.mem_append_left _ member)) directory
  obtain ⟨single, double, limit⟩ := plain name (List.mem_append_right _ (List.mem_singleton_self _))
  rw [← List.append_assoc] at vacant ⊢
  rw [walk_append led, walk_vacant single double (Nat.not_lt_of_le limit) vacant, if_pos rfl]

/-- A name that is too long, in a directory that plain names lead to. -/
theorem walk_of_long (sound : files.Sound) {name : String} (plain : Plain names)
    (directory : files.IsDirectory (here ++ names)) (long : nameLimit < name.utf8ByteSize)
    (wanted : Bool) : files.walk wanted here (names ++ [name]) = .error .nameTooLong := by
  rw [walk_append (walk_of_isDirectory sound plain directory)]
  apply walk_long _ _ long
  · rintro rfl
    exact absurd long (by decide)
  · rintro rfl
    exact absurd long (by decide)

/-- Nothing is done for a directory where something is. -/
theorem run_ensureDirectory_of_found {path : String} {target : Target}
    (there : files.find? path = .ok (some target)) :
    (ensureDirectory path).run files = (.ok (), files) := by
  rw [ensureDirectory, Action.run_bind, run_present, there]
  rfl

/-- A directory that is missing is made, if the way can be made and not too much of it is missing. -/
theorem run_ensureDirectory_of_missing {path : String} (free : '\x00' ∉ path.toList)
    (named : Path.names path ≠ []) (nowhere : files.find? path = .ok none) {count : Nat}
    (counted : files.countMissing (files.startOf path) (Path.names path) = .ok count)
    (few : count ≤ makeLimit)
    (made : makeWay (files.startOf path) (Path.names path) files = (.ok (), later)) :
    (ensureDirectory path).run files = (.ok (), later) := by
  have filled : path ≠ "" := by
    rintro rfl
    exact named rfl
  have whole : makeMissing path files = (.ok (), later) := by
    unfold makeMissing
    simp only [Fault.untilNul_of_free free, counted, if_neg (Nat.not_lt_of_le few), if_neg named, made]
  rw [ensureDirectory, Action.run_bind, run_present, nowhere]
  change (createDirectories path).run files = _
  unfold createDirectories Action.of Action.run
  simp only [if_neg filled, nowhere, whole]

section Erased

/-- The files without the entry of this directory. -/
def without (files : FileSystem) (root : List String) : FileSystem :=
  { files with entries := files.entries.erase root }

theorem getLast?_tail {name last : String} {rest : List String}
    (ends : (name :: rest).getLast? = some last) (other : rest = [] → name ≠ last) :
    rest.getLast? = some last := by
  rcases rest.eq_nil_or_concat with rfl | ⟨others, final, rfl⟩
  · exact absurd (Option.some.inj ends) (other rfl)
  · rw [List.concat_eq_append, ← List.cons_append, List.getLast?_concat] at ends
    rw [List.concat_eq_append, List.getLast?_concat, ends]

variable (led : files.walk true here names = .ok (.directory root))
include led

/-- Names that end with the name of a directory come to it by its name for a first time. -/
theorem exists_first {last : String} (ends : names.getLast? = some last) (single : last ≠ ".")
    (double : last ≠ "..") : ∃ before above name rest, names = before ++ name :: rest ∧
      root = above ++ [name] ∧ (name ≠ "." ∧ name ≠ ".." ∧ ¬ nameLimit < name.utf8ByteSize) ∧
        files.entries[root]? = some .directory ∧ files.walk true root rest = .ok (.directory root) ∧
          (files.without root).walk true here before = .ok (.directory above) := by
  fun_induction files.walk true here names with
  | case1 here => cases ends
  | case2 here rest ih =>
      obtain ⟨before, above, name, more, split, facts⟩ :=
        ih led (getLast?_tail ends fun _ => single.symm)
      refine ⟨"." :: before, above, name, more, by rw [split]; rfl, ?_⟩
      rw [walk_dot]
      exact facts
  | case3 here rest _ ih =>
      obtain ⟨before, above, name, more, split, facts⟩ :=
        ih led (getLast?_tail ends fun _ => double.symm)
      refine ⟨".." :: before, above, name, more, by rw [split]; rfl, ?_⟩
      rw [walk_dots]
      exact facts
  | case4 here name rest _ _ long => cases led
  | case5 here name rest one two short next entry ih =>
      by_cases first : here ++ [name] = root
      · subst first
        exact ⟨[], here, name, rest, rfl, rfl, ⟨one, two, short⟩, entry, led, rfl⟩
      · obtain ⟨before, above, other, more, split, facts⟩ := ih led <| getLast?_tail ends fun last => by
          subst last
          exact absurd (Target.directory.inj (Except.ok.inj led)) first
        have kept : (files.without root).entries[here ++ [name]]? = some .directory := by
          rw [without, getElem?_erase_entry, if_neg (Ne.symm first)]
          exact entry
        refine ⟨name :: before, above, other, more, by rw [split]; rfl, ?_⟩
        rw [walk_into one two short kept]
        exact facts
  | case6 here name rest _ _ _ next number entry last => cases led
  | case7 here name rest _ _ _ next number entry more => cases led
  | case8 here name _ _ _ next entry => cases led
  | case9 here name rest _ _ _ next entry more => cases led

/-- Without a directory, the names that led to it lead nowhere; making the way makes it again, and
nothing else. -/
theorem makeWay_erased {last : String} (ends : names.getLast? = some last) (single : last ≠ ".")
    (double : last ≠ "..") (free : ∀ name ∈ names, Fault.untilNul name = name) :
    (∀ wanted, found ((files.without root).walk wanted here names) = .ok none) ∧
      makeWay here names (files.without root) = (.ok (), files) ∧
      ∃ before name rest, names = before ++ name :: rest ∧ name ≠ "." ∧ name ≠ ".." ∧
        reach root rest = root ∧
        (files.without root).countMissing here names = .ok (undotted (name :: rest)) := by
  obtain ⟨before, above, name, rest, split, rfl, ⟨one, two, short⟩, entry, back, way⟩ :=
    exists_first led ends single double
  subst split
  have gone : (files.without (above ++ [name])).entries[above ++ [name]]? = none := by
    rw [without, getElem?_erase_entry, if_pos rfl]
  have whole : { files.without (above ++ [name]) with
      entries := (files.without (above ++ [name])).entries.insert (above ++ [name]) .directory } =
        files := by
    have entries : (files.without (above ++ [name])).entries.insert (above ++ [name]) .directory =
        files.entries := by
      apply Std.ExtTreeMap.ext_getElem?
      intro other
      rw [getElem?_insert_entry, without, getElem?_erase_entry]
      by_cases same : above ++ [name] = other
      · rw [if_pos same, ← same, entry]
      · rw [if_neg same, if_neg same]
    rw [entries]
    rfl
  refine ⟨fun wanted => ?_, ?_, before, name, rest, rfl, one, two,
    (namesOf_of_walk back).symm, ?_⟩
  · rw [walk_append way, walk_vacant one two short gone]
    by_cases last : rest = []
    · rw [if_pos last]
      rfl
    · rw [if_neg last]
      rfl
  · rw [makeWay_append way, makeWay_vacant one two short gone, whole]
    have made := makeWay_append back []
    rwa [List.append_nil] at made
  · rw [countMissing_append (fun other member => free other (List.mem_append_left _ member)) way]
    exact countMissing_vacant one two short
      (free name (List.mem_append_right _ List.mem_cons_self)) gone

end Erased

/-- Names that lead back have as many dots as other names, and take room in a path. -/
theorem undotted_le (here names : List String) (filled : ∀ name ∈ names, name ≠ "") :
    here.length + undotted names ≤ (reach here names).length + names.count ".." ∧
      2 * undotted names + 3 * names.count ".." ≤
        (names.map fun name => name.utf8ByteSize + 1).sum := by
  induction names generalizing here with
  | nil => exact ⟨Nat.le_refl _, Nat.le_refl _⟩
  | cons name rest ih =>
      obtain ⟨steps, sizes⟩ := ih (step here name) fun other member =>
        filled other (List.mem_cons_of_mem _ member)
      have stepped : reach here (name :: rest) = reach (step here name) rest := rfl
      have named : undotted (name :: rest) =
          undotted rest + if name ≠ "." ∧ name ≠ ".." then 1 else 0 := by
        simp only [undotted, List.countP_cons, decide_eq_true_eq]
      have dotted : (name :: rest).count ".." = rest.count ".." + if name = ".." then 1 else 0 := by
        simp only [List.count_cons, beq_iff_eq]
      have size : name.utf8ByteSize ≠ 0 := fun empty =>
        filled name List.mem_cons_self (String.utf8ByteSize_eq_zero_iff.mp empty)
      rw [stepped, named, dotted, List.map_cons, List.sum_cons]
      by_cases single : name = "."
      · subst single
        simp only [step, ne_eq, not_true_eq_false, false_and, String.reduceEq, ↓reduceIte] at steps ⊢
        omega
      by_cases double : name = ".."
      · subst double
        have dots : (".." : String).utf8ByteSize = 2 := by decide
        simp only [step, ne_eq, not_true_eq_false, and_false, String.reduceEq, ↓reduceIte,
          List.length_dropLast] at steps ⊢
        omega
      · rw [step_of_plain here single double, List.length_append, List.length_singleton] at steps
        rw [step_of_plain here single double, if_pos ⟨single, double⟩, if_neg double]
        omega

/-- A path is too short to name too many directories behind one to which it leads back. -/
theorem undotted_le_makeLimit {path name : String} {before rest : List String}
    (short : path.utf8ByteSize < pathLimit) (split : Path.names path = before ++ name :: rest)
    (single : name ≠ ".") (double : name ≠ "..") (back : reach root rest = root) :
    undotted (name :: rest) ≤ makeLimit := by
  have filled : ∀ other ∈ name :: rest, other ≠ "" := fun other member =>
    (Path.of_mem_names (split ▸ List.mem_append_right before member)).1
  have room := Path.sum_names_le path
  rw [split, List.map_append, List.sum_append] at room
  obtain ⟨-, sizes⟩ := undotted_le root (name :: rest) filled
  obtain ⟨steps, -⟩ := undotted_le root rest fun other member =>
    filled other (List.mem_cons_of_mem _ member)
  rw [back] at steps
  have more : undotted (name :: rest) = undotted rest + 1 := by
    rw [undotted, List.countP_cons]
    simp [single, double, undotted]
  have count : (name :: rest).count ".." = rest.count ".." := List.count_cons_of_ne double
  rw [pathLimit] at short
  rw [makeLimit]
  omega

end FileSystem

end ChunkTree
