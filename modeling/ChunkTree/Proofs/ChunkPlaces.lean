import ChunkTree.Proofs.PathNames
import ChunkTree.Proofs.Routes
import ChunkTree.Store.Disk

/-!
# The places of chunk files

A key is written in digits, so the names in the path of its file are plain ones behind those of the
base directory (`Disk.behind_pathOf`).  No two keys have one place, and no file beside a place is at
the place of another key (`Disk.place_injective`, `Disk.beside_ne_place`).
-/

namespace ChunkTree

namespace Hex

/-- Nothing but digits, as bytes are written. -/
def IsDigits (text : List Char) : Prop := ∀ c ∈ text, ∃ value < 16, c = digit value

theorem isDigits_encode (bytes : List UInt8) : IsDigits (encode bytes) := by
  intro c member
  obtain ⟨byte, -, here⟩ := List.mem_flatMap.mp member
  have bound := byte.toNat_lt
  simp only [ofByte, List.mem_cons, List.not_mem_nil, or_false] at here
  rcases here with rfl | rfl
  · exact ⟨_, by omega, rfl⟩
  · exact ⟨_, by omega, rfl⟩

variable {text : List Char}

theorem IsDigits.take (digits : IsDigits text) (count : Nat) : IsDigits (text.take count) :=
  fun c member => digits c (List.mem_of_mem_take member)

theorem IsDigits.drop (digits : IsDigits text) (count : Nat) : IsDigits (text.drop count) :=
  fun c member => digits c (List.mem_of_mem_drop member)

theorem IsDigits.not_mem (digits : IsDigits text) {c : Char}
    (other : ∀ value : Fin 16, digit value.val ≠ c) : c ∉ text := by
  intro member
  obtain ⟨value, small, same⟩ := digits c member
  exact other ⟨value, small⟩ same.symm

theorem IsDigits.utf8ByteSize (digits : IsDigits text) :
    (String.ofList text).utf8ByteSize = text.length := by
  have single : ∀ value : Fin 16, (digit value.val).utf8Size = 1 := by decide
  induction text with
  | nil => rfl
  | cons c rest ih =>
      obtain ⟨value, small, same⟩ := digits c List.mem_cons_self
      rw [String.ofList_cons, String.utf8ByteSize_append, String.utf8ByteSize_singleton, same,
        single ⟨value, small⟩, ih fun other member => digits other (List.mem_cons_of_mem _ member),
        List.length_cons, Nat.add_comm]

theorem IsDigits.slash_not_mem (digits : IsDigits text) : '/' ∉ text :=
  digits.not_mem (by decide)

theorem IsDigits.nul_not_mem (digits : IsDigits text) : '\x00' ∉ text :=
  digits.not_mem (by decide)

theorem IsDigits.dot_not_mem (digits : IsDigits text) : '.' ∉ text :=
  digits.not_mem (by decide)

/-- Digits write one run of bytes. -/
theorem encode_injective {first second : List UInt8} (same : encode first = encode second) :
    first = second := by
  have read := congrArg decode? same
  rwa [decode?_encode, decode?_encode, Option.some.injEq] at read

end Hex

namespace Disk

variable {base : String} {key other : Key}

/-- The names of the directory for the file of a key, from the base directory on. -/
def folder (key : Key) : List String :=
  let hex := Hex.encode key.bytes.toList
  if hex.length ≤ 6 then []
  else [String.ofList (hex.take 2), String.ofList ((hex.drop 2).take 2),
    String.ofList ((hex.drop 4).take 2)]

/-- The names of the file of a key, from the base directory on. -/
def place (key : Key) : List String := folder key ++ Path.names (nameOf key)

/-- The names of the file through which the file of a key is written. -/
def beside (key : Key) : List String := folder key ++ [nameOf key ++ ".tmp"]

theorem isDigits_nameOf (key : Key) : Hex.IsDigits (nameOf key).toList := by
  have digits := Hex.isDigits_encode key.bytes.toList
  simp only [nameOf, String.toList_ofList]
  by_cases short : (Hex.encode key.bytes.toList).length ≤ 6
  · rw [if_pos short]
    exact digits
  · rw [if_neg short]
    exact digits.drop 6

theorem isDigits_of_mem_folder {name : String} (member : name ∈ folder key) :
    Hex.IsDigits name.toList := by
  have digits := Hex.isDigits_encode key.bytes.toList
  simp only [folder] at member
  by_cases short : (Hex.encode key.bytes.toList).length ≤ 6
  · rw [if_pos short] at member
    exact absurd member List.not_mem_nil
  · simp only [short, ↓reduceIte, List.mem_cons, List.not_mem_nil, or_false] at member
    rcases member with rfl | rfl | rfl
    · rw [String.toList_ofList]
      exact digits.take 2
    · rw [String.toList_ofList]
      exact (digits.drop 2).take 2
    · rw [String.toList_ofList]
      exact (digits.drop 4).take 2

theorem names_nameOf (key : Key) :
    Path.names (nameOf key) = if nameOf key = "" then [] else [nameOf key] :=
  Path.names_of_not_mem (isDigits_nameOf key).slash_not_mem

theorem isDigits_of_mem_place {name : String} (member : name ∈ place key) :
    Hex.IsDigits name.toList := by
  rw [place, List.mem_append, names_nameOf] at member
  rcases member with inFolder | last
  · exact isDigits_of_mem_folder inFolder
  · by_cases empty : nameOf key = ""
    · rw [if_pos empty] at last
      exact absurd last List.not_mem_nil
    · rw [if_neg empty, List.mem_singleton] at last
      exact last ▸ isDigits_nameOf key

section Paths

variable (filled : base ≠ "") (free : '\x00' ∉ base.toList)
include filled free

theorem behind_directoryOf (key : Key) : Path.Behind base (directoryOf base key) (folder key) := by
  have digits := Hex.isDigits_encode key.bytes.toList
  simp only [directoryOf, folder]
  by_cases short : (Hex.encode key.bytes.toList).length ≤ 6
  · rw [if_pos short, if_pos short]
    exact .refl filled free
  · rw [if_neg short, if_neg short]
    have step {directory : String} {more : List String} {part : List Char}
        (behind : Path.Behind base directory more) (digits : Hex.IsDigits part)
        (some : 0 < part.length) :
        Path.Behind base (Path.child directory (String.ofList part))
          (more ++ [String.ofList part]) := by
      have longer := behind.child (by rw [String.toList_ofList]; exact digits.nul_not_mem)
      have filled : String.ofList part ≠ "" := by
        intro empty
        rw [String.ofList_eq_empty_iff.mp empty] at some
        exact absurd some (Nat.lt_irrefl _)
      rwa [Path.names_of_not_mem (by rw [String.toList_ofList]; exact digits.slash_not_mem),
        if_neg filled] at longer
    have outer := step (.refl filled free) (digits.take 2) (by rw [List.length_take]; omega)
    have middle := step outer ((digits.drop 2).take 2)
      (by rw [List.length_take, List.length_drop]; omega)
    exact step middle ((digits.drop 4).take 2) (by rw [List.length_take, List.length_drop]; omega)

/-- The path of the file of a key has its place behind the base. -/
theorem behind_pathOf (key : Key) : Path.Behind base (pathOf base key) (place key) :=
  (behind_directoryOf filled free key).child (isDigits_nameOf key).nul_not_mem

/-- The path of the file through which another is written has its place behind the base. -/
theorem behind_beside (key : Key) : Path.Behind base (pathOf base key ++ ".tmp") (beside key) := by
  have clean : '\x00' ∉ (nameOf key ++ ".tmp").toList := by
    rw [String.toList_append, List.mem_append, not_or]
    exact ⟨(isDigits_nameOf key).nul_not_mem, by decide⟩
  have slashless : '/' ∉ (nameOf key ++ ".tmp").toList := by
    rw [String.toList_append, List.mem_append, not_or]
    exact ⟨(isDigits_nameOf key).slash_not_mem, by decide⟩
  have some : nameOf key ++ ".tmp" ≠ "" := by
    intro empty
    have texts := congrArg String.toList empty
    simp at texts
  have behind := (behind_directoryOf filled free key).child clean
  rwa [Path.names_of_not_mem slashless, if_neg some, ← Path.child_append] at behind

end Paths

theorem length_hex (key : Key) : (Hex.encode key.bytes.toList).length = 2 * key.size := by
  rw [Hex.length_encode, Array.length_toList, Key.size]

/-- The file of a key of at most three bytes is in the base directory itself. -/
theorem folder_of_short (short : key.size ≤ 3) : folder key = [] := by
  simp only [folder, length_hex, if_pos (by omega : 2 * key.size ≤ 6)]

theorem folder_of_long (long : 3 < key.size) :
    folder key = [String.ofList ((Hex.encode key.bytes.toList).take 2),
      String.ofList (((Hex.encode key.bytes.toList).drop 2).take 2),
      String.ofList (((Hex.encode key.bytes.toList).drop 4).take 2)] := by
  simp only [folder, length_hex, if_neg (by omega : ¬ 2 * key.size ≤ 6)]

theorem folder_ne_nil (long : 3 < key.size) : folder key ≠ [] := by
  rw [folder_of_long long]
  exact List.cons_ne_nil _ _

theorem length_folder (long : 3 < key.size) : (folder key).length = 3 := by
  rw [folder_of_long long]
  rfl

theorem nameOf_of_short (short : key.size ≤ 3) :
    nameOf key = String.ofList (Hex.encode key.bytes.toList) := by
  simp only [nameOf, length_hex, if_pos (by omega : 2 * key.size ≤ 6)]

theorem nameOf_of_long (long : 3 < key.size) :
    nameOf key = String.ofList ((Hex.encode key.bytes.toList).drop 6) := by
  simp only [nameOf, length_hex, if_neg (by omega : ¬ 2 * key.size ≤ 6)]

theorem length_nameOf (key : Key) :
    (nameOf key).length = if key.size ≤ 3 then 2 * key.size else 2 * key.size - 6 := by
  by_cases short : key.size ≤ 3
  · rw [if_pos short, nameOf_of_short short, String.length_ofList, length_hex]
  · rw [if_neg short, nameOf_of_long (by omega), String.length_ofList, List.length_drop, length_hex]

theorem utf8ByteSize_nameOf (key : Key) :
    (nameOf key).utf8ByteSize = if key.size ≤ 3 then 2 * key.size else 2 * key.size - 6 := by
  have size := (isDigits_nameOf key).utf8ByteSize
  rwa [String.ofList_toList, String.length_toList, length_nameOf] at size

/-- Directories are named with two digits. -/
theorem length_of_mem_folder {name : String} (member : name ∈ folder key) : name.length = 2 := by
  by_cases short : key.size ≤ 3
  · rw [folder_of_short short] at member
    exact absurd member List.not_mem_nil
  · have length := length_hex key
    rw [folder_of_long (by omega)] at member
    simp only [List.mem_cons, List.not_mem_nil, or_false] at member
    rcases member with rfl | rfl | rfl
    · rw [String.length_ofList, List.length_take]
      omega
    · rw [String.length_ofList, List.length_take, List.length_drop]
      omega
    · rw [String.length_ofList, List.length_take, List.length_drop]
      omega

/-- The directory for the file of a long key has no slash at its end to be taken away. -/
theorem trimmed_directoryOf (long : 3 < key.size) :
    Path.trimmed (directoryOf base key) = directoryOf base key := by
  have length := length_hex key
  apply Path.trimmed_of_endsInSlash_eq_false
  have digits := ((Hex.isDigits_encode key.bytes.toList).drop 4).take 2
  have some : String.ofList (((Hex.encode key.bytes.toList).drop 4).take 2) ≠ "" := by
    intro empty
    have none := congrArg List.length (String.ofList_eq_empty_iff.mp empty)
    rw [List.length_take, List.length_drop, List.length_nil] at none
    omega
  simp only [directoryOf, if_neg (by omega : ¬ (Hex.encode key.bytes.toList).length ≤ 6)]
  rw [Path.endsInSlash_child _ some, Path.endsInSlash, decide_eq_false_iff_not,
    String.toList_ofList]
  intro last
  exact digits.slash_not_mem (List.mem_of_getLast? last)

/-- A name of digits, with a few characters behind them, is a plain one unless it is too long. -/
theorem plain_of_digits {name : String} (digits : Hex.IsDigits name.toList) (some : name ≠ "")
    (suffix : String) (short : name.length + suffix.utf8ByteSize ≤ FileSystem.nameLimit) :
    name ++ suffix ≠ "." ∧ name ++ suffix ≠ ".." ∧
      (name ++ suffix).utf8ByteSize ≤ FileSystem.nameLimit := by
  have size := digits.utf8ByteSize
  rw [String.ofList_toList, String.length_toList] at size
  have filled : name.toList ≠ [] := by simpa using some
  obtain ⟨c, rest, text⟩ := List.exists_cons_of_ne_nil filled
  have first : c ≠ '.' := fun same => digits.dot_not_mem (same ▸ text ▸ List.mem_cons_self)
  refine ⟨?_, ?_, ?_⟩
  · intro same
    have texts := congrArg String.toList same
    simp [text] at texts
    exact first texts.1
  · intro same
    have texts := congrArg String.toList same
    simp [text] at texts
    exact first texts.1
  · rw [String.utf8ByteSize_append, size]
    exact short

theorem plain_folder (key : Key) : FileSystem.Plain (folder key) := by
  intro name member
  have length := length_of_mem_folder member
  have some : name ≠ "" := by
    rintro rfl
    cases length
  have plain := plain_of_digits (isDigits_of_mem_folder member) some "" (by rw [length]; decide)
  rwa [String.append_empty] at plain

/-- The digits of a key are those of its place. -/
theorem digits_place (key : Key) :
    (place key).flatMap String.toList = Hex.encode key.bytes.toList := by
  have last : (Path.names (nameOf key)).flatMap String.toList = (nameOf key).toList := by
    rw [names_nameOf]
    by_cases empty : nameOf key = ""
    · rw [if_pos empty, empty]
      rfl
    · rw [if_neg empty]
      simp
  have step (count : Nat) : ((Hex.encode key.bytes.toList).drop count).take 2 ++
      (Hex.encode key.bytes.toList).drop (count + 2) =
        (Hex.encode key.bytes.toList).drop count := by
    rw [← List.drop_drop, List.take_append_drop]
  rw [place, List.flatMap_append, last]
  by_cases short : key.size ≤ 3
  · rw [folder_of_short short, nameOf_of_short short, String.toList_ofList]
    rfl
  · rw [folder_of_long (by omega), nameOf_of_long (by omega)]
    simp only [List.flatMap_cons, List.flatMap_nil, String.toList_ofList, List.append_nil,
      List.append_assoc]
    rw [step 4, step 2, List.take_append_drop]

/-- The places of two keys are different. -/
theorem place_injective (same : place key = place other) : key = other := by
  have digits := congrArg (List.flatMap String.toList) same
  rw [digits_place, digits_place] at digits
  have bytes := Array.toList_inj.mp (Hex.encode_injective digits)
  rcases key with ⟨_⟩
  rcases other with ⟨_⟩
  exact congrArg Key.mk bytes

/-- No file stands beside a place at the place of another key. -/
theorem beside_ne_place (key other : Key) : beside key ≠ place other := by
  intro same
  have member : nameOf key ++ ".tmp" ∈ place other := by
    rw [← same, beside]
    exact List.mem_append_right _ (List.mem_singleton_self _)
  have dot : '.' ∈ (nameOf key ++ ".tmp").toList := by
    rw [String.toList_append, List.mem_append]
    exact .inr (by decide)
  exact (isDigits_of_mem_place member).dot_not_mem dot

/-- Only the empty key gives its file no name. -/
theorem nameOf_eq_empty_iff : nameOf key = "" ↔ key.size = 0 := by
  have length := length_nameOf key
  constructor
  · intro empty
    rw [empty, String.length_empty] at length
    by_cases short : key.size ≤ 3
    · rw [if_pos short] at length
      omega
    · rw [if_neg short] at length
      omega
  · intro none
    rw [if_pos (by omega), none] at length
    exact String.length_eq_zero_iff.mp length

theorem place_of_filled (filled : key.size ≠ 0) : place key = folder key ++ [nameOf key] := by
  rw [place, names_nameOf, if_neg (nameOf_eq_empty_iff.not.mpr filled)]

theorem place_eq_nil_iff : place key = [] ↔ key.size = 0 := by
  constructor
  · intro bare
    by_contra filled
    rw [place_of_filled filled] at bare
    exact List.cons_ne_nil _ _ (List.append_eq_nil_iff.mp bare).2
  · intro none
    rw [place, names_nameOf, if_pos (nameOf_eq_empty_iff.mpr none), folder_of_short (by omega)]
    rfl

theorem endsInSlash_pathOf_of_filled (filled : key.size ≠ 0) :
    Path.endsInSlash (pathOf base key) = false := by
  rw [pathOf, Path.endsInSlash_child _ (nameOf_eq_empty_iff.not.mpr filled), Path.endsInSlash,
    decide_eq_false_iff_not]
  intro last
  exact (isDigits_nameOf key).slash_not_mem (List.mem_of_getLast? last)

/-- With room for it, a name that goes on with a few characters behind the digits is a plain one. -/
theorem plain_with (filled : key.size ≠ 0) (suffix : String) (few : suffix.utf8ByteSize ≤ 4)
    (room : 2 * key.size + suffix.utf8ByteSize ≤ FileSystem.nameLimit + 6) :
    FileSystem.Plain (folder key ++ [nameOf key ++ suffix]) := by
  have length := length_nameOf key
  have limit : FileSystem.nameLimit = 255 := rfl
  intro name member
  rcases List.mem_append.mp member with inFolder | last
  · exact plain_folder key name inFolder
  · rw [List.mem_singleton.mp last]
    apply plain_of_digits (isDigits_nameOf key) (nameOf_eq_empty_iff.not.mpr filled)
    by_cases short : key.size ≤ 3
    · rw [if_pos short] at length
      omega
    · rw [if_neg short] at length
      omega

/-- The names of a place are plain ones up to 130 bytes. -/
theorem plain_place_of_le (filled : key.size ≠ 0) (short : key.size ≤ 130) :
    FileSystem.Plain (place key) := by
  have limit : FileSystem.nameLimit = 255 := rfl
  have plain := plain_with filled "" (by decide) (by rw [String.utf8ByteSize_empty]; omega)
  rwa [String.append_empty, ← place_of_filled filled] at plain

/-- A key that does not name its file as directories are named, and leaves room in the name. -/
structure Fitting (key : Key) : Prop where
  long : 1 < key.size
  short : key.size ≤ 128

namespace Fitting

theorem filled (fitting : Fitting key) : key.size ≠ 0 := Nat.ne_zero_of_lt fitting.long

theorem place_eq (fitting : Fitting key) : place key = folder key ++ [nameOf key] :=
  place_of_filled fitting.filled

theorem place_ne_nil (fitting : Fitting key) : place key ≠ [] :=
  place_eq_nil_iff.not.mpr fitting.filled

theorem endsInSlash_pathOf (fitting : Fitting key) :
    Path.endsInSlash (pathOf base key) = false :=
  endsInSlash_pathOf_of_filled fitting.filled

theorem plain_place (fitting : Fitting key) : FileSystem.Plain (place key) :=
  plain_place_of_le fitting.filled (Nat.le_trans fitting.short (by decide))

theorem plain_beside (fitting : Fitting key) : FileSystem.Plain (beside key) := by
  have short := fitting.short
  have limit : FileSystem.nameLimit = 255 := rfl
  have size : ".tmp".utf8ByteSize = 4 := by decide
  exact plain_with fitting.filled ".tmp" size.le (by omega)

end Fitting

/-- A key of so many bytes: of some, and of no more than names leave room for. -/
structure Lasting (size : Nat) (key : Key) : Prop where
  same : key.size = size
  some : 0 < size
  short : size ≤ 64

namespace Lasting

variable {size : Nat} (lasting : Lasting size key)
include lasting

theorem filled : key.size ≠ 0 := lasting.same ▸ Nat.ne_of_gt lasting.some

theorem place_ne_nil : place key ≠ [] := place_eq_nil_iff.not.mpr lasting.filled

theorem endsInSlash_pathOf : Path.endsInSlash (pathOf base key) = false :=
  endsInSlash_pathOf_of_filled lasting.filled

theorem plain_place : FileSystem.Plain (place key) :=
  plain_place_of_le lasting.filled (lasting.same ▸ Nat.le_trans lasting.short (by decide))

end Lasting

/-- No name of a place is one of those that lead elsewhere. -/
theorem undotted_place (key : Key) : ∀ name ∈ place key, name ≠ "." ∧ name ≠ ".." := by
  intro name member
  have digits := isDigits_of_mem_place member
  constructor
  · rintro rfl
    exact digits.dot_not_mem (by decide)
  · rintro rfl
    exact digits.dot_not_mem (by decide)

/-- Neither is one of those of the file beside it. -/
theorem undotted_beside (key : Key) : ∀ name ∈ beside key, name ≠ "." ∧ name ≠ ".." := by
  intro name member
  rcases List.mem_append.mp member with inFolder | last
  · exact undotted_place key name (List.mem_append_left _ inFolder)
  · rw [List.mem_singleton.mp last]
    have long : (nameOf key ++ ".tmp").length = (nameOf key).length + 4 := String.length_append ..
    have single : ".".length = 1 := rfl
    have double : "..".length = 2 := rfl
    constructor
    · intro same
      rw [same] at long
      omega
    · intro same
      rw [same] at long
      omega

end Disk

end ChunkTree
