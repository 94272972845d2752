import ChunkTree.Proofs.OpenStores

/-!
# Bases that do not lead back

Making a base directory makes the directories above it, too.  If the path of the base leads back out of
one of them, that one may be at the place of a chunk.  Without `..` in the path that cannot be: opening
the store changes nothing about what the paths of chunks lead to (`Disk.find?_pathOf_of_openAt`).
-/

namespace ChunkTree

namespace FileSystem

variable {files : FileSystem}

/-- What is found where names lead, if they lead anywhere. -/
def found : Except PathFault Target → Except PathFault (Option Target)
  | .ok (.vacant _) | .error .missing | .error .notDirectory => .ok none
  | .ok target => .ok (some target)
  | .error reason => .error reason

theorem find?_eq_found (files : FileSystem) (path : String) :
    files.find? path = found (files.locate path) := by
  rw [find?]
  rcases files.locate path with (_ | _ | _ | _ | _ | _ | _) | (_ | _ | _)
  · rfl
  · rfl
  · rfl
  · rfl
  · rfl
  · rfl
  · rfl
  · rfl
  · rfl
  · rfl

theorem found_of_no_entry {wanted : Bool} {here names : List String} (plain : Plain names)
    (nothing : files.entries[here ++ names]? = none) (some : names ≠ []) :
    found (files.walk wanted here names) = .ok none := by
  rcases walk_of_no_entry plain nothing some with led | led | led
  · rw [led]
    rfl
  · rw [led]
    rfl
  · rw [led]
    rfl

section Straight

variable {here names more : List String} {wanted : Bool} (plain : Plain more) (some : more ≠ [])
include plain some

/-- Behind directories that are made where nothing was there is nothing. -/
theorem found_makeWay_of_bare (sound : files.Sound) (directory : files.IsDirectory here)
    (bare : ∀ below : List String, below ≠ [] → files.entries[here ++ below]? = none)
    (straight : ".." ∉ names) (made : (makeWay here names files).1 = .ok ()) :
    found ((makeWay here names files).2.walk wanted here (names ++ more)) = .ok none := by
  induction names generalizing here files with
  | nil => exact found_of_no_entry plain (bare more some) some
  | cons name rest ih =>
      rw [List.mem_cons, not_or] at straight
      have double : name ≠ ".." := Ne.symm straight.1
      rw [List.cons_append]
      by_cases single : name = "."
      · rw [single, makeWay_dot] at made ⊢
        rw [walk_dot]
        exact ih sound directory bare straight.2 made
      by_cases long : nameLimit < name.utf8ByteSize
      · rw [makeWay_long single double long] at made
        cases made
      have vacant := bare [name] (List.cons_ne_nil _ _)
      have next := grown_insert sound directory vacant
      have entry : (files.entries.insert (here ++ [name]) .directory)[here ++ [name]]? =
          .some .directory := Std.ExtTreeMap.getElem?_insert_self
      have grown := (grown_makeWay next.sound (.inr entry) rest).1
      rw [makeWay_vacant single double long vacant] at made ⊢
      rw [walk_into single double long (grown.kept entry)]
      apply ih next.sound (.inr entry) _ straight.2 made
      intro below filled
      rw [getElem?_insert_entry, if_neg, List.append_assoc]
      · exact bare _ (List.cons_ne_nil _ _)
      · intro same
        exact filled (List.self_eq_append_right.mp same)

/-- Where names that do not lead back were made, the names behind them lead where they led. -/
theorem found_makeWay (sound : files.Sound) (directory : files.IsDirectory here)
    (straight : ".." ∉ names) (made : (makeWay here names files).1 = .ok ()) :
    found ((makeWay here names files).2.walk wanted here (names ++ more)) =
      found (files.walk wanted here (names ++ more)) := by
  induction names generalizing here with
  | nil => rfl
  | cons name rest ih =>
      rw [List.mem_cons, not_or] at straight
      have double : name ≠ ".." := Ne.symm straight.1
      rw [List.cons_append]
      by_cases single : name = "."
      · rw [single, makeWay_dot] at made ⊢
        rw [walk_dot, walk_dot]
        exact ih directory straight.2 made
      by_cases long : nameLimit < name.utf8ByteSize
      · rw [makeWay_long single double long] at made
        cases made
      rcases held : files.entries[here ++ [name]]? with _ | _ | number
      · have next := grown_insert sound directory held
        have entry : (files.entries.insert (here ++ [name]) .directory)[here ++ [name]]? =
          .some .directory := Std.ExtTreeMap.getElem?_insert_self
        have grown := (grown_makeWay next.sound (.inr entry) rest).1
        have further : rest ++ more ≠ [] := List.append_ne_nil_of_right_ne_nil _ some
        rw [makeWay_vacant single double long held] at made ⊢
        rw [walk_into single double long (grown.kept entry), walk_vacant single double long held,
          if_neg further]
        refine found_makeWay_of_bare plain some next.sound (.inr entry) ?_ straight.2 made
        intro below filled
        rw [getElem?_insert_entry, if_neg fun same => filled (List.self_eq_append_right.mp same)]
        by_contra there
        rcases sound.above filled there with never | entry
        · exact absurd never (by simp)
        · rw [held] at entry
          cases entry
      · have grown := (grown_makeWay sound (.inr held) rest).1
        rw [makeWay_into single double long held] at made ⊢
        rw [walk_into single double long (grown.kept held), walk_into single double long held]
        exact ih (.inr held) straight.2 made
      · rw [makeWay_onto single double long held] at made
        cases made

end Straight

end FileSystem

namespace FileSystem

variable {files later : FileSystem}

/-- Names that do not lead back lead on. -/
theorem prefix_reach {names : List String} (straight : ".." ∉ names) (here : List String) :
    here <+: reach here names := by
  induction names generalizing here with
  | nil => exact List.prefix_rfl
  | cons name rest ih =>
      rw [List.mem_cons, not_or] at straight
      have next : here <+: step here name := by
        by_cases single : name = "."
        · exact ⟨[], by rw [List.append_nil, step, if_pos single]⟩
        · rw [step_of_plain here single (Ne.symm straight.1)]
          exact List.prefix_append here [name]
      exact next.trans (ih straight.2 _)

/-- Where names that do not lead back lead to something old, they led there before more was added. -/
theorem walk_of_widens (sound : files.Sound) {fresh : List String → Prop} {written : Nat → Prop}
    (widens : files.Widens fresh written later) {wanted : Bool} {here names : List String}
    {target : Target} (straight : ".." ∉ names) (led : later.walk wanted here names = .ok target)
    (some : ∀ vacant, target ≠ .vacant vacant)
    (old : namesOf target = [] ∨ files.entries[namesOf target]? ≠ none) :
    files.walk wanted here names = .ok target := by
  have kept {names : List String} {entry : Entry} (there : files.entries[names]? ≠ none)
      (held : later.entries[names]? = .some entry) : files.entries[names]? = .some entry :=
    (widens.entries names).elim (fun same => same ▸ held) fun new => absurd new.1 there
  fun_induction later.walk wanted here names with
  | case1 here => exact led
  | case2 here rest ih =>
      rw [walk_dot]
      exact ih (List.not_mem_of_not_mem_cons straight) led
  | case3 here rest _ ih => exact absurd List.mem_cons_self straight
  | case4 here name rest _ _ long => cases led
  | case5 here name rest single double short next entry ih =>
      have behind := List.not_mem_of_not_mem_cons straight
      have below : here ++ [name] <+: namesOf target :=
        namesOf_of_walk led ▸ prefix_reach behind (here ++ [name])
      have there : files.entries[here ++ [name]]? ≠ none := by
        obtain ⟨more, same⟩ := below
        rcases old with bare | old
        · rw [bare] at same
          simp at same
        · rw [← same] at old
          by_cases last : more = []
          · rwa [last, List.append_nil] at old
          · rcases sound.above last old with never | directory
            · simp at never
            · rw [directory]
              exact Option.some_ne_none _
      rw [walk_into single double short (kept there entry)]
      exact ih behind led
  | case6 here name rest single double short next number entry last =>
      obtain rfl := Except.ok.inj led
      have there : files.entries[here ++ [name]]? ≠ none :=
        old.resolve_left (List.append_ne_nil_of_right_ne_nil _ (List.cons_ne_nil _ _))
      rw [walk_onto single double short (kept there entry), if_pos last]
  | case7 here name rest _ _ _ next number entry more => cases led
  | case8 here name _ _ _ next entry =>
      cases led
      exact absurd rfl (some _)
  | case9 here name rest _ _ _ next entry more => cases led

/-- What a path leads to that does not lead back, it led to before other things were added. -/
theorem find?_of_widens (sound : files.Sound) {fresh : List String → Prop} {written : Nat → Prop}
    (widens : files.Widens fresh written later) {path : String} (free : '\x00' ∉ path.toList)
    (straight : ".." ∉ Path.names path) (old : ¬ fresh (spot files.here path)) {target : Target}
    (found : later.find? path = .ok (some target)) : files.find? path = .ok (some target) := by
  have led := locate_of_find? found
  have named : namesOf target = spot files.here path :=
    (namesOf_of_locate free led).trans (by rw [widens.here])
  have some : ∀ vacant, target ≠ .vacant vacant := by
    rintro vacant rfl
    rw [find?, led] at found
    cases found
  have placed := placed_of_locate widens.sound led
  have there : namesOf target = [] ∨ later.entries[namesOf target]? ≠ none := by
    rcases target with names | ⟨names, number⟩ | names
    · refine placed.imp id fun entry => ?_
      rw [namesOf, entry]
      exact Option.some_ne_none _
    · right
      rw [namesOf, (placed : later.entries[names]? = _)]
      exact Option.some_ne_none _
    · exact absurd rfl (some names)
  have held : namesOf target = [] ∨ files.entries[namesOf target]? ≠ none := by
    refine there.imp id fun entry => ?_
    rcases widens.entries (namesOf target) with same | ⟨-, new⟩
    · exact same ▸ entry
    · exact absurd (named ▸ new) old
  have walked := walk_of_locate led
  rw [Fault.untilNul_of_free free, widens.keepsDirectories.startOf] at walked
  have before := walk_of_widens sound widens straight walked some held
  have located : files.locate path = .ok target := by
    refine locate_of_locate led ?_
    rw [Fault.untilNul_of_free free]
    exact before
  rw [find?, located]
  rcases target with names | ⟨names, number⟩ | names
  · rfl
  · rfl
  · exact absurd rfl (some names)

end FileSystem

namespace Disk

variable {base : String} {files later : FileSystem} {key : Key}

/-- **Opening a store puts nothing at the places of chunks.**  This is so as long as the path of its
base does not lead back. -/
theorem find?_pathOf_of_openAt (sound : files.Sound) (free : '\x00' ∉ base.toList)
    (straight : ".." ∉ Path.names base) (opened : (openAt base).run files = (.ok (), later))
    {size : Nat}
    (lasting : Lasting size key) :
    later.find? (pathOf base key) = files.find? (pathOf base key) := by
  have usable := (leads_of_openAt sound free opened).1
  rcases openAt_cases opened with ⟨rfl, -⟩ | made
  · rfl
  · have later_eq := made.later
    have whole := made.whole
    rw [Fault.untilNul_of_free free] at later_eq whole
    simp only at later_eq
    have behind := behind_pathOf usable.filled usable.free key
    have grown := (FileSystem.grown_makeWay sound (sound.startOf base) (Path.names base)).1
    rw [← later_eq] at grown
    rw [FileSystem.find?_eq_found, FileSystem.find?_eq_found, later.locate_of_behind behind,
      files.locate_of_behind behind, grown.keepsDirectories.startOf]
    by_cases long : FileSystem.pathLimit ≤ (pathOf base key).utf8ByteSize
    · rw [if_pos long, if_pos long]
    · rw [if_neg long, if_neg long, later_eq]
      exact FileSystem.found_makeWay lasting.plain_place lasting.place_ne_nil sound
        (sound.startOf base) straight (whole rfl)

end Disk

end ChunkTree
