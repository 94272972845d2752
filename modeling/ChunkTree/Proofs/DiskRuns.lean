import ChunkTree.Proofs.DiskTable

/-!
# Stores on one directory

Any number of stores are opened on a directory that is missing or empty, and used in any order
(`Disk.Reached`).  Together they are one table, in which the first data that is put under a key stays:
every answer is that of the table, and the files below the directory are those of the keys that are
bound, one for each (`Disk.refines_of_reached`).

A base is a path, which is followed each time anew.  It must not lead through the directory's own
contents, which come and go (`FileSystem.Skirts`); a path without `..` never does
(`FileSystem.skirts_of_straight`).  Where a path has no room for the name of a file, the file system
refuses the put.
-/

namespace ChunkTree

namespace FileSystem

/-- Names without `..` do not lead through the directory to which they lead. -/
theorem skirts_of_straight (here : List String) {names : List String} (straight : ".." ∉ names) :
    Skirts (reach here names) here names := by
  refine ⟨rfl, ?_⟩
  rintro taken ⟨rest, rfl⟩ ⟨below, some, deeper⟩
  rw [List.mem_append, not_or] at straight
  have length := (prefix_reach straight.2 (reach here taken)).length_le
  rw [← reach_append] at length
  rw [deeper, List.length_append] at length
  have filled := List.length_pos_iff.mpr some
  omega

end FileSystem

namespace Disk

open FileSystem (Inside Skirts)

variable {root : List String} {bases : List String} {table : Table} {base : String}
  {files later : FileSystem} {key : Key} {data : Bytes} {chunk : Chunk}

/-- The directory is missing or empty. -/
structure Bare (root : List String) (files : FileSystem) : Prop where
  sound : files.Sound
  rooted : ∀ number, files.entries[root]? ≠ some (.file number)
  nothing : ∀ names, Inside root names → files.entries[names]? = none

/-- An empty directory shows an empty table. -/
theorem Bare.mirrors (bare : Bare root files) : Mirrors root (fun _ => none) files where
  sound := bare.sound
  apart := by
    intro inside
    rcases bare.sound.here with start | entry
    · obtain ⟨below, some, same⟩ := inside
      rw [start] at same
      exact some (List.append_eq_nil_iff.mp same.symm).2
    · rw [bare.nothing _ inside] at entry
      cases entry
  rooted := bare.rooted
  fitting := nofun
  held := nofun
  only := by
    intro below entry some held
    rw [bare.nothing _ ⟨below, some, rfl⟩] at held
    cases held

/-- What can come of a directory that was missing or empty and that nobody writes but the stores that
are opened on it: the bases that were opened, the table that the stores make up, and the files. -/
inductive Reached (root : List String) : List String → Table → FileSystem → Prop where
  | bare {files : FileSystem} (bare : Bare root files) : Reached root [] (fun _ => none) files
  | opened {bases : List String} {table : Table} {files later : FileSystem} {base : String}
      (reached : Reached root bases table files) (free : '\x00' ∉ base.toList)
      (skirts : Skirts root (files.startOf base) (Path.names base))
      (opened : (openAt base).run files = (.ok (), later)) : Reached root (base :: bases) table later
  | put {bases : List String} {table : Table} {files : FileSystem} {base : String} {chunk : Chunk}
      (reached : Reached root bases table files) (among : base ∈ bases) (fitting : Fitting chunk.key) :
      Reached root bases (table.put base chunk) ((put base chunk).run files).2
  | get {bases : List String} {table : Table} {files : FileSystem} {base : String} {key : Key}
      (reached : Reached root bases table files) (among : base ∈ bases) (fitting : Fitting key) :
      Reached root bases table ((get base key).run files).2
  | has {bases : List String} {table : Table} {files : FileSystem} {base : String} {key : Key}
      (reached : Reached root bases table files) (among : base ∈ bases) (fitting : Fitting key) :
      Reached root bases table ((has base key).run files).2
  | clear {bases : List String} {table : Table} {files : FileSystem} {base : String}
      (reached : Reached root bases table files) (among : base ∈ bases) :
      Reached root bases (fun _ => none) ((clear base).run files).2

/-- Every store that is open serves the directory, and the directory shows the table. -/
theorem mirrors_of_reached (reached : Reached root bases table files) :
    Mirrors root table files ∧ ∀ base ∈ bases, Serves root base files := by
  induction reached with
  | bare bare => exact ⟨bare.mirrors, fun _ never => absurd never List.not_mem_nil⟩
  | opened reached free skirts opened ih =>
      obtain ⟨mirrors, serving⟩ := ih
      obtain ⟨still, serves, keeps⟩ := mirrors.of_openAt free skirts opened
      refine ⟨still, fun other member => ?_⟩
      rcases List.mem_cons.mp member with rfl | before
      · exact serves
      · exact (serving other before).of_keeps keeps
  | put reached among fitting ih =>
      obtain ⟨mirrors, serving⟩ := ih
      obtain ⟨later, ran, still, keeps, -⟩ := mirrors.run_put (serving _ among) fitting
      rw [ran]
      exact ⟨still, fun other member => (serving other member).of_keeps keeps⟩
  | get reached among fitting ih =>
      rw [ih.1.run_get (ih.2 _ among) fitting]
      exact ih
  | has reached among fitting ih =>
      rw [ih.1.run_has (ih.2 _ among) fitting]
      exact ih
  | clear reached among ih =>
      obtain ⟨mirrors, serving⟩ := ih
      rw [(serving _ among).run_clear]
      exact ⟨mirrors.emptied, fun other member => (serving other member).emptied⟩

/-- The files below a directory are those of the keys that are bound, one for each, and no file is left
beside them. -/
structure Shows (root : List String) (table : Table) (files : FileSystem) : Prop where
  held : ∀ key data, table key = some data → ∃ number,
    files.entries[root ++ place key]? = some (.file number) ∧ files.content number = data
  only : ∀ names number, Inside root names → files.entries[names]? = some (.file number) →
    ∃ key data, table key = some data ∧ names = root ++ place key
  single : ∀ key other, root ++ place key = root ++ place other → key = other
  clean : ∀ names name, files.entries[root ++ names ++ [name ++ ".tmp"]]? = none

/-- The stores on a directory answer as the table says, and the files show it. -/
structure Refines (root : List String) (bases : List String) (table : Table) (files : FileSystem) :
    Prop where
  put : ∀ base ∈ bases, ∀ chunk : Chunk, Fitting chunk.key →
    ((put base chunk).run files).1 = table.putAnswer base chunk ∧
    (chunk.isRequest ∨ table chunk.key ≠ none → ((put base chunk).run files).2 = files)
  get : ∀ base ∈ bases, ∀ key, Fitting key → (get base key).run files =
    (if (pathOf base key).utf8ByteSize < FileSystem.pathLimit then table.answer key
      else .error (tooLong base key), files)
  has : ∀ base ∈ bases, ∀ key, Fitting key → (has base key).run files =
    (if (pathOf base key).utf8ByteSize < FileSystem.pathLimit then .ok (table key).isSome
      else .error (tooLong base key), files)
  clear : ∀ base ∈ bases, ((clear base).run files).1 = clearAnswer base
  shows : Shows root table files
  paths : ∀ base ∈ bases, ∀ key data, table key = some data →
    (pathOf base key).utf8ByteSize < FileSystem.pathLimit → files.Holds (pathOf base key) data

theorem Mirrors.shows (mirrors : Mirrors root table files) : Shows root table files where
  held := mirrors.held
  only := by
    rintro _ number ⟨below, some, rfl⟩ held
    rcases mirrors.only below _ some held with ⟨never, -⟩ | ⟨key, data, bound, same⟩
    · cases never
    · exact ⟨key, data, bound, congrArg (root ++ ·) same⟩
  single _ _ same := place_injective (List.append_cancel_left same)
  clean := by
    intro names name
    by_contra there
    obtain ⟨entry, held⟩ := Option.ne_none_iff_exists'.mp there
    rw [List.append_assoc] at held
    have member : name ++ ".tmp" ∈ names ++ [name ++ ".tmp"] :=
      List.mem_append_right _ (List.mem_singleton_self _)
    rcases mirrors.only _ entry (List.ne_nil_of_mem member) held with
      ⟨-, foldered⟩ | ⟨key, data, bound, same⟩
    · have short := foldered.short _ member
      rw [String.length_append] at short
      have tail : ".tmp".length = 4 := by decide
      omega
    · rw [same] at member
      have dot : '.' ∈ (name ++ ".tmp").toList := by
        rw [String.toList_append, List.mem_append]
        exact .inr (by decide)
      exact (isDigits_of_mem_place member).dot_not_mem dot

/-- **The stores on a directory are one table.**  However many there are and in whatever order they
are used, what was first put under a key is got from then on, until one of them is cleared; all answers
are those of the table, and the files are those of its keys. -/
theorem refines_of_reached (reached : Reached root bases table files) :
    Refines root bases table files := by
  obtain ⟨mirrors, serving⟩ := mirrors_of_reached reached
  refine ⟨?_, ?_, ?_, ?_, mirrors.shows, ?_⟩
  · intro base among chunk fitting
    obtain ⟨later, ran, -, -, same⟩ := mirrors.run_put (serving base among) fitting
    rw [ran]
    exact ⟨rfl, same⟩
  · exact fun base among key fitting => mirrors.run_get (serving base among) fitting
  · exact fun base among key fitting => mirrors.run_has (serving base among) fitting
  · intro base among
    rw [(serving base among).run_clear]
  · intro base among key data bound short
    obtain ⟨number, led, content⟩ := mirrors.locate_of_bound (serving base among)
      (mirrors.fitting key data bound) short bound
    exact ⟨_, number, led, content⟩

/-- No directory is there yet. -/
theorem bare_empty : Bare ["s"] FileSystem.empty where
  sound := FileSystem.sound_empty
  rooted := by
    intro number held
    rw [FileSystem.empty, Std.ExtTreeMap.getElem?_empty] at held
    cases held
  nothing _ _ := Std.ExtTreeMap.getElem?_empty

theorem skirts_empty {base : String} (named : Path.names base = ["s"]) :
    Skirts ["s"] (FileSystem.empty.startOf base) (Path.names base) := by
  have start : FileSystem.empty.startOf base = [] := ite_self _
  rw [start, named]
  exact FileSystem.skirts_of_straight [] (by decide : ".." ∉ ["s"])

/-- A chunk with a short key, and one with a longer key that goes on where the short one ends. -/
def flatChunk : Chunk := ⟨⟨#[1, 2]⟩, some #[7], 0⟩

def deepChunk : Chunk := ⟨⟨#[1, 2, 3, 4]⟩, some #[1, 0, 0, 0, 0, 0, 0, 0, 9], 1⟩

/-- The files after one store was opened and has put a chunk. -/
def afterFirst : FileSystem :=
  ((put "s" flatChunk).run ((openAt "s").run FileSystem.empty).2).2

/-- A second store comes by another path, and puts another chunk. -/
theorem refines_of_two_stores :
    Refines ["s"] ["./s/", "s"] (Table.put (Table.put (fun _ => none) "s" flatChunk) "./s/" deepChunk)
      ((put "./s/" deepChunk).run ((openAt "./s/").run afterFirst).2).2 := by
  have first : Skirts ["s"] (FileSystem.empty.startOf "s") (Path.names "s") := by
    have start : FileSystem.empty.startOf "s" = [] := by decide +kernel
    have names : Path.names "s" = ["s"] := by decide +kernel
    rw [start, names]
    exact FileSystem.skirts_of_straight [] (by decide : ".." ∉ ["s"])
  have second : Skirts ["s"] (afterFirst.startOf "./s/") (Path.names "./s/") := by
    have start : afterFirst.startOf "./s/" = [] := by decide +kernel
    have names : Path.names "./s/" = [".", "s"] := by decide +kernel
    rw [start, names]
    exact FileSystem.skirts_of_straight [] (by decide : ".." ∉ [".", "s"])
  have opened : ((openAt "s").run FileSystem.empty).1 = .ok () := by decide +kernel
  have again : ((openAt "./s/").run afterFirst).1 = .ok () := by decide +kernel
  apply refines_of_reached
  refine .put (.opened (.put (.opened (.bare bare_empty) (by decide) first (Prod.ext opened rfl))
    List.mem_cons_self ?_) (by decide) second (Prod.ext again rfl)) List.mem_cons_self ?_
  · exact ⟨by decide, by decide⟩
  · exact ⟨by decide, by decide⟩

/-- A path with slashes at its end, which name nothing and leave less room behind them. -/
def slashes (count : Nat) : String := String.ofList ('s' :: List.replicate count '/')

section Slashes

variable (count : Nat)

theorem toList_slashes : (slashes count).toList = ['s'] ++ List.replicate count '/' :=
  String.toList_ofList

theorem slashes_filled : slashes count ≠ "" := by
  intro empty
  have text := toList_slashes count
  rw [empty] at text
  cases text

theorem slashes_free : '\x00' ∉ (slashes count).toList := by
  rw [toList_slashes, List.mem_append, not_or]
  exact ⟨by decide, fun nul => absurd (List.eq_of_mem_replicate nul) (by decide)⟩

theorem names_slashes : Path.names (slashes count) = ["s"] := by
  rw [Path.names, toList_slashes, Path.filter_cut_append _ fun _ member =>
    List.eq_of_mem_replicate member]
  decide +kernel

theorem utf8ByteSize_slashes : (slashes count).utf8ByteSize = count + 1 := by
  induction count with
  | zero => decide +kernel
  | succ count ih =>
      have more : slashes (count + 1) = slashes count ++ "/" := by
        rw [slashes, List.replicate_succ', ← List.cons_append, String.ofList_append]
        rfl
      rw [more, String.utf8ByteSize_append, ih]
      rfl

theorem utf8ByteSize_pathOf_slashes :
    (pathOf (slashes (count + 1)) flatChunk.key).utf8ByteSize = count + 6 := by
  have flat (base : String) : pathOf base flatChunk.key = Path.child base "0102" := by
    have short : directoryOf base flatChunk.key = base := rfl
    have name : nameOf flatChunk.key = "0102" := by decide +kernel
    rw [pathOf, short, name]
  have ends : Path.endsInSlash (slashes (count + 1)) := by
    rw [Path.endsInSlash, toList_slashes, List.replicate_succ', ← List.append_assoc,
      List.getLast?_concat]
    rfl
  rw [flat, Path.child, if_pos (.inr ends), String.utf8ByteSize_append, utf8ByteSize_slashes]
  rfl

/-- A store is opened as long as the path itself has room. -/
theorem opened_slashes (short : count + 1 < FileSystem.pathLimit) :
    ((openAt (slashes count)).run FileSystem.empty).1 = .ok () := by
  have usable : Usable (slashes count) := by
    refine ⟨slashes_filled count, slashes_free count, ?_⟩
    rw [utf8ByteSize_slashes]
    exact short
  have start : FileSystem.empty.startOf (slashes count) = [] := ite_self _
  have nowhere : FileSystem.empty.find? (slashes count) = .ok none := by
    have vacant : ∀ wanted, FileSystem.found (FileSystem.empty.walk wanted [] ["s"]) = .ok none := by
      decide +kernel
    rw [FileSystem.find?_eq_found, usable.locate_eq, start, names_slashes]
    exact vacant _
  have counted : FileSystem.empty.countMissing (FileSystem.empty.startOf (slashes count))
      (Path.names (slashes count)) = .ok 1 := by
    rw [start, names_slashes]
    decide +kernel
  have made : (FileSystem.makeWay (FileSystem.empty.startOf (slashes count))
      (Path.names (slashes count)) FileSystem.empty).1 = .ok () := by
    rw [start, names_slashes]
    decide +kernel
  have named : Path.names (slashes count) ≠ [] := by
    rw [names_slashes]
    exact List.cons_ne_nil _ _
  rw [openAt, Action.run_tryCatch, FileSystem.run_ensureDirectory_of_missing usable.free named nowhere
    counted (by decide) (Prod.ext made rfl)]

/-- How the first put to the store ends depends on the room. -/
theorem put_slashes (short : count + 1 < FileSystem.pathLimit) :
    ((put (slashes count) flatChunk).run ((openAt (slashes count)).run FileSystem.empty).2).1 =
      Table.putAnswer (fun _ => none) (slashes count) flatChunk := by
  obtain ⟨mirrors, serving⟩ := mirrors_of_reached (.opened (.bare bare_empty) (slashes_free count)
    (skirts_empty (names_slashes count)) (Prod.ext (opened_slashes count short) rfl))
  have fitting : Fitting flatChunk.key := ⟨by decide, by decide⟩
  obtain ⟨later, ran, -⟩ := mirrors.run_put (serving _ List.mem_cons_self) fitting
  rw [ran]

end Slashes

/-- The stores on a directory are not a table for every path.  Where the path has no room for the name
of the file, or of the one through which it is written, a new chunk is not put.  A path through what is
inside the directory leads nowhere once the store was cleared.  A path with a NUL is that before it, and
has every key. -/
theorem not_table_of_any_path :
    (((openAt (slashes 4092)).run FileSystem.empty).1 = .ok () ∧
      ((put (slashes 4092) flatChunk).run ((openAt (slashes 4092)).run FileSystem.empty).2).1 =
        .error (tooLong (slashes 4092) flatChunk.key)) ∧
    (((openAt (slashes 4088)).run FileSystem.empty).1 = .ok () ∧
      ((put (slashes 4088) flatChunk).run ((openAt (slashes 4088)).run FileSystem.empty).2).1 =
        .error (.chunkFileUncreated (pathOf (slashes 4088) flatChunk.key ++ ".tmp"))) ∧
    ((do
      openAt "s"
      openAt "s/x/.."
      clear "s"
      put "s" flatChunk
      let direct ← has "s" flatChunk.key
      let around ← has "s/x/.." flatChunk.key
      return (direct, around) : Action FileSystem (Bool × Bool)).run FileSystem.empty).1 =
        .ok (true, false) ∧
    ((do
      openAt "s\x00"
      has "s\x00" flatChunk.key : Action FileSystem Bool).run FileSystem.empty).1 = .ok true := by
  have unrequested : ¬ flatChunk.isRequest := by decide
  refine ⟨⟨opened_slashes 4092 (by decide), ?_⟩, ⟨opened_slashes 4088 (by decide), ?_⟩, ?_, ?_⟩
  · have long : FileSystem.pathLimit ≤ (pathOf (slashes 4092) flatChunk.key).utf8ByteSize := by
      rw [utf8ByteSize_pathOf_slashes]
      decide
    rw [put_slashes 4092 (by decide), Table.putAnswer, if_neg unrequested, if_pos long]
  · have size := utf8ByteSize_pathOf_slashes 4087
    have short : ¬ FileSystem.pathLimit ≤ (pathOf (slashes 4088) flatChunk.key).utf8ByteSize := by
      rw [size]
      decide
    have cramped : ¬ Fits (slashes 4088) flatChunk.key := by
      rw [Fits, size]
      decide
    rw [put_slashes 4088 (by decide), Table.putAnswer, if_neg unrequested, if_neg short,
      if_pos ⟨rfl, cramped⟩]
  · decide +kernel
  · decide +kernel

end Disk

end ChunkTree
