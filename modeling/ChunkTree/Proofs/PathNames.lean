import ChunkTree.FileSystem
import Mathlib.Data.List.TakeWhile

/-!
# The names in a path

The names in the path of a name in a directory are those of the directory and then that name
(`Path.Behind.child`).  So a path that was built from another leads where the names behind that one
lead (`FileSystem.locate_of_behind`).
-/

namespace ChunkTree

theorem Fault.untilNul_of_free {text : String} (free : '\x00' ∉ text.toList) :
    Fault.untilNul text = text := by
  have all : text.toList.takeWhile (· ≠ '\x00') = text.toList := by
    rw [List.takeWhile_eq_self_iff]
    intro c member
    rw [decide_eq_true_eq]
    rintro rfl
    exact free member
  rw [Fault.untilNul, all, String.ofList_toList]

namespace Path

theorem cut_ne_nil (separator : Char) (text : List Char) : cut separator text ≠ [] := by
  induction text with
  | nil => simp [cut]
  | cons c rest ih =>
      rw [cut]
      by_cases same : c = separator
      · simp [same]
      · rw [if_neg same]
        rcases cut separator rest with _ | ⟨first, others⟩
        · simp
        · simp

/-- What is before a separator is cut apart from what is behind it. -/
theorem cut_append (separator : Char) (before behind : List Char) :
    cut separator (before ++ separator :: behind) = cut separator before ++ cut separator behind := by
  induction before with
  | nil => simp [cut]
  | cons c rest ih =>
      by_cases same : c = separator
      · simp [cut, same, ih]
      · rw [List.cons_append, cut, cut, if_neg same, if_neg same, ih]
        rcases runs : cut separator rest with _ | ⟨first, others⟩
        · exact absurd runs (cut_ne_nil separator rest)
        · rfl

theorem cut_of_not_mem {separator : Char} {text : List Char} (whole : separator ∉ text) :
    cut separator text = [text] := by
  induction text with
  | nil => rfl
  | cons c rest ih =>
      rw [List.mem_cons, not_or] at whole
      rw [cut, if_neg (Ne.symm whole.1), ih whole.2]

/-- A text without slashes is a name, unless it is empty. -/
theorem names_of_not_mem {name : String} (slashless : '/' ∉ name.toList) :
    names name = if name = "" then [] else [name] := by
  rw [names, cut_of_not_mem slashless]
  by_cases empty : name = ""
  · simp [empty]
  · have some : name.toList ≠ [] := by simpa using empty
    simp [empty, some]

theorem names_of_cut {path : String} {runs others : List (List Char)}
    (parts : cut '/' path.toList = runs ++ others) :
    names path = (runs.filter (· ≠ [])).map String.ofList ++
      (others.filter (· ≠ [])).map String.ofList := by
  rw [names, parts, List.filter_append, List.map_append]

theorem names_child (directory name : String) : names (child directory name) =
    names directory ++ names name := by
  rw [child]
  by_cases joined : directory = "" ∨ endsInSlash directory
  · rw [if_pos joined]
    rcases joined with rfl | slash
    · rw [String.empty_append]
      rfl
    · rw [endsInSlash, decide_eq_true_eq] at slash
      obtain ⟨before, split⟩ := List.getLast?_eq_some_iff.mp slash
      have cuts : cut '/' directory.toList = cut '/' before ++ [[]] := by
        rw [split, cut_append]
        rfl
      have together : cut '/' (directory ++ name).toList = cut '/' before ++ cut '/' name.toList := by
        rw [String.toList_append, split, List.append_assoc, List.singleton_append, cut_append]
      rw [names_of_cut together, names_of_cut cuts]
      simp [names]
  · rw [if_neg joined]
    have together : cut '/' (directory ++ "/" ++ name).toList =
        cut '/' directory.toList ++ cut '/' name.toList := by
      rw [String.toList_append, String.toList_append, List.append_assoc]
      exact cut_append '/' _ _
    exact names_of_cut together

/-- A path that starts where another does and goes on from there with more names. -/
structure Behind (base path : String) (more : List String) : Prop where
  filled : path ≠ ""
  free : '\x00' ∉ path.toList
  absolute : isAbsolute path = isAbsolute base
  names_eq : names path = names base ++ more

theorem Behind.refl {base : String} (filled : base ≠ "") (free : '\x00' ∉ base.toList) :
    Behind base base [] :=
  ⟨filled, free, rfl, (List.append_nil _).symm⟩

theorem toList_child (directory name : String) : ∃ between : List Char,
    (child directory name).toList = directory.toList ++ between ++ name.toList ∧
      '\x00' ∉ between := by
  rw [child]
  by_cases joined : directory = "" ∨ endsInSlash directory
  · rw [if_pos joined]
    exact ⟨[], by simp, List.not_mem_nil⟩
  · rw [if_neg joined]
    exact ⟨['/'], by simp, by decide⟩

theorem Behind.child {base directory name : String} {more : List String}
    (behind : Behind base directory more) (free : '\x00' ∉ name.toList) :
    Behind base (child directory name) (more ++ names name) := by
  obtain ⟨between, text, clean⟩ := toList_child directory name
  have some : directory.toList ≠ [] := by simpa using behind.filled
  constructor
  · intro empty
    rw [empty] at text
    simp [behind.filled] at text
  · rw [text]
    simp [behind.free, clean, free]
  · rw [← behind.absolute, isAbsolute, isAbsolute, text, List.append_assoc, List.head?_append,
      List.head?_eq_some_head some, Option.some_or]
  · rw [names_child, behind.names_eq, List.append_assoc]

/-- What is added to the name of a file is added to its path. -/
theorem child_append (directory name suffix : String) :
    child directory name ++ suffix = child directory (name ++ suffix) := by
  rw [child, child]
  by_cases joined : directory = "" ∨ endsInSlash directory
  · rw [if_pos joined, if_pos joined, String.append_assoc]
  · rw [if_neg joined, if_neg joined, String.append_assoc]

/-- A path ends as the name at its end does. -/
theorem endsInSlash_child (directory : String) {name : String} (filled : name ≠ "") :
    endsInSlash (child directory name) = endsInSlash name := by
  obtain ⟨between, text, -⟩ := toList_child directory name
  have some : name.toList ≠ [] := by simpa using filled
  rw [endsInSlash, endsInSlash, text, List.getLast?_append, List.getLast?_eq_some_getLast some,
    Option.some_or]

theorem trimmed_of_endsInSlash_eq_false {path : String} (plain : endsInSlash path = false) :
    trimmed path = path := by
  rw [endsInSlash, decide_eq_false_iff_not] at plain
  rw [trimmed]
  rcases reversed : path.toList.reverse with _ | ⟨last, rest⟩
  · have empty : path = "" := by simpa using reversed
    simp [empty]
  · have ends : path.toList.getLast? = some last := by
      rw [← List.head?_reverse, reversed]
      rfl
    have other : last ≠ '/' := by
      rintro rfl
      exact plain ends
    have stays : (last :: rest).dropWhile (· = '/') = last :: rest := by
      simp [other]
    have back : (last :: rest).reverse = path.toList := by
      rw [← reversed, List.reverse_reverse]
    rw [stays]
    simp only [back, String.ofList_toList]

/-- A path of slashes has no names. -/
theorem filter_cut_of_slashes {slashes : List Char} (all : ∀ c ∈ slashes, c = '/') :
    (cut '/' slashes).filter (· ≠ []) = [] := by
  induction slashes with
  | nil => rfl
  | cons c rest ih =>
      rw [cut, if_pos (all c List.mem_cons_self)]
      exact ih fun other member => all other (List.mem_cons_of_mem _ member)

/-- Slashes at the end of a path name nothing. -/
theorem filter_cut_append {slashes : List Char} (text : List Char) (all : ∀ c ∈ slashes, c = '/') :
    (cut '/' (text ++ slashes)).filter (· ≠ []) = (cut '/' text).filter (· ≠ []) := by
  cases slashes with
  | nil => rw [List.append_nil]
  | cons c rest =>
      have none : (cut '/' rest).filter (· ≠ []) = [] :=
        filter_cut_of_slashes fun other member => all other (List.mem_cons_of_mem _ member)
      rw [all c List.mem_cons_self, cut_append, List.filter_append, none, List.append_nil]

/-- Without the slashes at its end a path leads where it did, and is no longer. -/
theorem behind_trimmed {base : String} (filled : base ≠ "") (free : '\x00' ∉ base.toList) :
    Behind base (trimmed base) [] ∧ (trimmed base).utf8ByteSize ≤ base.utf8ByteSize := by
  have some : base.toList ≠ [] := by simpa using filled
  have text : base.toList = (base.toList.reverse.dropWhile (· = '/')).reverse ++
      (base.toList.reverse.takeWhile (· = '/')).reverse := by
    rw [← List.reverse_append, List.takeWhile_append_dropWhile, List.reverse_reverse]
  have all : ∀ c ∈ (base.toList.reverse.takeWhile (· = '/')).reverse, c = '/' := by
    intro c member
    have slash := List.mem_takeWhile_imp (List.mem_reverse.mp member)
    exact of_decide_eq_true slash
  rw [trimmed]
  rcases stripped : base.toList.reverse.dropWhile (· = '/') with _ | ⟨last, rest⟩
  · rw [stripped, List.reverse_nil, List.nil_append] at text
    rw [← text] at all
    obtain ⟨first, others, split⟩ := List.exists_cons_of_ne_nil some
    obtain rfl : first = '/' := all first (split ▸ List.mem_cons_self)
    have named : names base = [] := by rw [names, filter_cut_of_slashes all, List.map_nil]
    simp only [if_neg filled]
    refine ⟨⟨by decide, by decide, ?_, ?_⟩, ?_⟩
    · rw [isAbsolute, isAbsolute, split]
      rfl
    · rw [named]
      rfl
    · rw [← String.ofList_toList (s := base), split, String.ofList_cons, String.utf8ByteSize_append]
      exact Nat.le_add_right _ _
  · rw [stripped] at text
    have whole : (String.ofList (last :: rest).reverse).toList = (last :: rest).reverse :=
      String.toList_ofList
    have filled : (last :: rest).reverse ≠ [] := by simp
    refine ⟨⟨?_, ?_, ?_, ?_⟩, ?_⟩
    · rw [Ne, String.ofList_eq_empty_iff]
      exact filled
    · rw [whole]
      intro nul
      rw [text] at free
      exact free (List.mem_append_left _ nul)
    · rw [isAbsolute, isAbsolute, whole, text, List.head?_append, List.head?_eq_some_head filled,
        Option.some_or]
    · rw [List.append_nil, names, names, whole, text, filter_cut_append _ all]
    · rw [← String.ofList_toList (s := base), text, String.ofList_append, String.utf8ByteSize_append]
      exact Nat.le_add_right _ _

/-- A path goes on from the directory that it has for its last name. -/
theorem behind_parent {path : String} (free : '\x00' ∉ path.toList) (some : parent path ≠ "") :
    '\x00' ∉ (parent path).toList ∧ ∃ last, Behind (parent path) path last := by
  have text : path.toList = (path.toList.reverse.dropWhile (· ≠ '/')).reverse ++
      (path.toList.reverse.takeWhile (· ≠ '/')).reverse := by
    rw [← List.reverse_append, List.takeWhile_append_dropWhile, List.reverse_reverse]
  rw [parent] at some ⊢
  rcases stripped : path.toList.reverse.dropWhile (· ≠ '/') with _ | ⟨c, rest⟩
  · rw [stripped] at some
    exact absurd rfl some
  obtain rfl : c = '/' := by
    have first := List.head?_dropWhile_not (· ≠ '/') path.toList.reverse
    rw [stripped] at first
    simpa using first
  generalize (path.toList.reverse.takeWhile (· ≠ '/')).reverse = last at text
  rw [stripped, List.reverse_cons] at text
  rw [List.reverse_cons]
  have whole : (String.ofList (rest.reverse ++ ['/'])).toList = rest.reverse ++ ['/'] :=
    String.toList_ofList
  have filled : String.ofList (rest.reverse ++ ['/']) ≠ "" := by
    rw [Ne, String.ofList_eq_empty_iff]
    simp
  have clean : '\x00' ∉ (String.ofList (rest.reverse ++ ['/'])).toList := by
    rw [whole]
    intro nul
    rw [text] at free
    exact free (List.mem_append_left _ nul)
  obtain ⟨behind, -⟩ := behind_trimmed filled clean
  have cuts : cut '/' (String.ofList (rest.reverse ++ ['/'])).toList = cut '/' rest.reverse ++ [[]] := by
    rw [whole, cut_append]
    rfl
  have together : cut '/' path.toList = cut '/' rest.reverse ++ cut '/' last := by
    rw [text, List.append_assoc, List.singleton_append, cut_append]
  refine ⟨behind.free, ((cut '/' last).filter (· ≠ [])).map String.ofList, ?_, free, ?_, ?_⟩
  · rintro rfl
    cases stripped
  · rw [behind.absolute, isAbsolute, isAbsolute, whole, text, List.append_assoc]
    cases rest.reverse with
    | nil => rfl
    | cons first others => rfl
  · rw [behind.names_eq, List.append_nil, names_of_cut together, names_of_cut cuts]
    simp

/-- The path of a name in a directory is no shorter than that of the directory. -/
theorem utf8ByteSize_le_child (directory name : String) :
    directory.utf8ByteSize ≤ (child directory name).utf8ByteSize := by
  rw [child]
  by_cases joined : directory = "" ∨ endsInSlash directory
  · rw [if_pos joined, String.utf8ByteSize_append]
    exact Nat.le_add_right _ _
  · rw [if_neg joined, String.utf8ByteSize_append, String.utf8ByteSize_append, Nat.add_assoc]
    exact Nat.le_add_right _ _

theorem utf8ByteSize_child_le (directory name : String) :
    (child directory name).utf8ByteSize ≤ directory.utf8ByteSize + 1 + name.utf8ByteSize := by
  have slash : "/".utf8ByteSize = 1 := by decide
  rw [child]
  by_cases joined : directory = "" ∨ endsInSlash directory
  · rw [if_pos joined, String.utf8ByteSize_append]
    omega
  · rw [if_neg joined, String.utf8ByteSize_append, String.utf8ByteSize_append, slash]

end Path

namespace FileSystem

variable (files : FileSystem) {base path : String} {more : List String}

theorem startOf_of_behind (behind : Path.Behind base path more) :
    files.startOf path = files.startOf base := by
  rw [startOf, startOf, behind.absolute]

theorem locate_of_behind (behind : Path.Behind base path more) :
    files.locate path =
      if pathLimit ≤ path.utf8ByteSize then .error .nameTooLong
      else files.walk (Path.endsInSlash path) (files.startOf base) (Path.names base ++ more) := by
  rw [locate]
  simp only [Fault.untilNul_of_free behind.free, if_neg behind.filled,
    files.startOf_of_behind behind, behind.names_eq]

end FileSystem

end ChunkTree
