import ChunkTree.Proofs.Storing

/-!
# What commands do to a process

Whatever a command is and however it ends, both tiers keep what they have (`Process.carries_obey`), as long
as files that are stored have contents of the chosen kind and files that are read to are outside of the
base directory.  Content whose chunks are on disk is read back as it was
(`Process.run_readFile_of_stored`), and so is its length (`Process.run_sizeAt_of_stored`).
-/

namespace ChunkTree.Process

open Disk (Distinct Loose OnDisk Usable)
open FileSystem (Opens Rewrites spot)

variable {surroundings : Surroundings} {options : Options} {made : Key → Bytes → Prop}
  {here : List String} {root? : Option (List String)} {size : Nat} {before state : State}
  {chunker : Chunker} {content : Bytes} {shape : Shape}

/-- The content has a tree that may be held, of chunks of the chosen kind, and all of its nodes are on
disk. -/
structure Stored (base : String) (root? : Option (List String)) (made : Key → Bytes → Prop)
    (files : FileSystem) (chunker : Chunker) (content : Bytes) (shape : Shape) : Prop where
  allowed : Allowed chunker content shape
  known : ∀ node ∈ (chunker.treeAt shape.depth content).preorder,
    made (chunker.nameOf node.data) node.data
  onDisk : ∀ node ∈ (chunker.treeAt shape.depth content).preorder,
    OnDisk base root? files (chunker.nameOf node.data) node.data

/-- What is stored stays stored. -/
theorem Stored.of_onDisk {base : String} {files later : FileSystem}
    (stored : Stored base root? made files chunker content shape)
    (kept : ∀ key data, made key data → OnDisk base root? files key data →
      OnDisk base root? later key data) : Stored base root? made later chunker content shape :=
  ⟨stored.allowed, stored.known, fun node member =>
    kept _ _ (stored.known node member) (stored.onDisk node member)⟩

theorem Allowed.size_data_lt (allowed : Allowed chunker content shape)
    (single : chunker.keySize * chunker.branches < wordLimit) (honest : chunker.hasher.Honest) :
    ∀ node ∈ (chunker.treeAt shape.depth content).preorder, node.data.size < wordLimit := by
  intro node member
  have size := Chunker.size_data_le_longestLeaf single shape.depth
    (Chunker.le_window_succ_of_shapeOf allowed.covered) (fun node _ => honest node.data) member
  exact Nat.lt_of_le_of_lt (Nat.le_trans size allowed.held) (by decide)

/-- No file that a path leads to, or would lead to, is below the base directory. -/
def Outside (base : String) (files : FileSystem) (path : String) : Prop :=
  ∀ (root names : List String) (number : Nat), files.locate base = .ok (.directory root) →
    files.locate path = .ok (.file names number) ∨ files.locate path = .ok (.vacant names) →
      ¬ root <+: names

/-- A file outside of the base directory is at none of the places of chunks, and none is written through
it. -/
theorem Outside.apart (usable : Usable options.directory)
    (sure : Sure surroundings options root? made here state) {path : String}
    (outside : Outside options.directory state.files path) {files : FileSystem} {names : List String}
    {number : Nat} (opens : Opens state.files files path names number) :
    (∀ root key data, root? = some root → made key data → root ++ Disk.place key ≠ names) ∧
      ¬ Loose root? made names := by
  have away : ∀ root, root? = some root → ¬ root <+: names := by
    rintro root rfl
    exact outside root names number (usable.locate_of_leads sure.tiers.truthful.leads) opens.led
  refine ⟨fun root key data same _ at_ => away root same (at_ ▸ List.prefix_append _ _), ?_⟩
  rintro ⟨root, key, data, same, -, rfl⟩
  exact away root same (List.prefix_append _ _)

/-- No file that a path leads to, or would lead to, is the log at any moment. -/
def Spares (surroundings : Surroundings) (options : Options) (files : FileSystem) (path : String) :
    Prop :=
  ∀ (moment : Nat) (names : List String) (number : Nat),
    files.locate path = .ok (.file names number) ∨ files.locate path = .ok (.vacant names) →
      names ≠ spot files.here (logAt surroundings options moment)

/-- A path leads to a file with this content, which is neither the log at any moment nor a file through
which chunks are written. -/
def Safe (surroundings : Surroundings) (options : Options) (root? : Option (List String))
    (made : Key → Bytes → Prop) (here : List String) (files : FileSystem) (path : String)
    (content : Bytes) : Prop :=
  ∃ names number, files.locate path = .ok (.file names number) ∧ files.content number = content ∧
    ¬ Loose root? made names ∧ ∀ moment, names ≠ spot here (logAt surroundings options moment)

theorem Safe.holds {files : FileSystem} {path : String}
    (safe : Safe surroundings options root? made here files path content) :
    files.Holds path content := by
  obtain ⟨names, number, led, same, -⟩ := safe
  exact ⟨names, number, led, same⟩

/-- What happens beside the shell leaves such a file. -/
theorem Safe.of_moves {later : State} {path : String}
    (sound : state.files.Sound) (safe : Safe surroundings options root? made here state.files path content)
    (moves : Moves surroundings options root? made here state later) :
    Safe surroundings options root? made here later.files path content := by
  obtain ⟨names, number, led, same, fast, spared⟩ := safe
  have entry : state.files.entries[names]? = some (.file number) :=
    FileSystem.placed_of_locate sound led
  obtain ⟨more, grown, none⟩ := moves.grown names number fast entry
  refine ⟨names, number, FileSystem.locate_file_of_keeps moves.keeps led
    (moves.kept names number fast entry), ?_, fast, spared⟩
  rw [grown, none spared, same, Array.append_empty]

/-- After another state both tiers have what they have to have, and all that they had. -/
structure Carries (surroundings : Surroundings) (options : Options) (root? : Option (List String))
    (made : Key → Bytes → Prop) (here : List String) (before state : State) : Prop where
  sure : Sure surroundings options root? made here state
  onward : Program.Onward options.directory root? made before.tiers state.tiers

theorem Carries.refl (sure : Sure surroundings options root? made here state) :
    Carries surroundings options root? made here state state :=
  ⟨sure, .refl _⟩

theorem Carries.trans {between : State}
    (first : Carries surroundings options root? made here before between)
    (second : Carries surroundings options root? made here between state) :
    Carries surroundings options root? made here before state :=
  ⟨second.sure, first.onward.trans second.onward⟩

/-- Files may change in any way that leaves the chunks and the log. -/
theorem Carries.change (carries : Carries surroundings options root? made here before state)
    {files : FileSystem} {fresh : List String → Prop} {written : Nat → Prop}
    (follows : Disk.Follows options.directory root? made state.files files)
    (widens : state.files.Widens fresh written files) :
    Carries surroundings options root? made here before (State.filesPlace.update files state) := by
  obtain ⟨tiers, onward⟩ := carries.sure.tiers.of_follows follows
  refine ⟨⟨tiers, widens.here.trans carries.sure.stands, fun number opened => ?_⟩,
    carries.onward.trans onward⟩
  obtain ⟨moment, entry⟩ := carries.sure.log number opened
  exact ⟨moment, widens.kept entry⟩

/-- While a file is written that is at none of the places of chunks: both tiers keep what they have, and
the file has its name. -/
structure Filling (surroundings : Surroundings) (options : Options) (root? : Option (List String))
    (made : Key → Bytes → Prop) (here : List String) (before : State) (names : List String)
    (number : Nat) (pair : State × OutputFile) : Prop where
  carries : Carries surroundings options root? made here before pair.1
  keeps : before.files.KeepsDirectories pair.1.files
  entry : pair.1.files.entries[names]? = some (.file number)
  same : pair.2.number = number

/-- Everything that was written is in the file or waits, and there is room for so much in all. -/
structure Copying (surroundings : Surroundings) (options : Options) (root? : Option (List String))
    (made : Key → Bytes → Prop) (here : List String) (before : State) (names : List String)
    (number limit : Nat) (written : Bytes) (pair : State × OutputFile) : Prop where
  filling : Filling surroundings options root? made here before names number pair
  roomy : pair.2.Roomy pair.1.files limit
  all : pair.2.written pair.1.files = written

/-- The file may be written. -/
theorem Filling.rewrites {names : List String} {number : Nat} {file other : OutputFile}
    (filling : Filling surroundings options root? made here before names number (state, file))
    (apart : ∀ root key data, root? = some root → made key data → root ++ Disk.place key ≠ names)
    {files : FileSystem} (rewrites : state.files.Rewrites number files) (same : other.number = number) :
    Filling surroundings options root? made here before names number
      (State.filesPlace.update files state, other) where
  carries := by
    have truthful := filling.carries.sure.tiers.truthful
    have widens : state.files.Widens (fun _ => False) (· = number) files :=
      FileSystem.widens_of_rewrites truthful.sound rewrites
    exact filling.carries.change (Disk.follows_of_rewrites truthful apart rewrites filling.entry) widens
  keeps := by
    have entries : (State.filesPlace.update files state).files.entries = state.files.entries :=
      rewrites.entries
    refine ⟨rewrites.here.trans filling.keeps.here, fun _ held => ?_⟩
    rw [entries]
    exact filling.keeps.directories _ held
  entry := by
    have entries : (State.filesPlace.update files state).files.entries = state.files.entries :=
      rewrites.entries
    rw [entries]
    exact filling.entry
  same := same

/-- The file may be closed. -/
theorem Filling.close {names : List String} {number : Nat} {file : OutputFile}
    (filling : Filling surroundings options root? made here before names number (state, file))
    (apart : ∀ root key data, root? = some root → made key data → root ++ Disk.place key ≠ names) :
    Filling surroundings options root? made here before names number
      (State.filesPlace.update (file.close state.files) state, file) := by
  have rewrites := file.rewrites_close state.files
  rw [filling.same] at rewrites
  exact filling.rewrites apart rewrites filling.same

/-- What happens beside the shell leaves its name. -/
theorem Filling.moves {names : List String} {number : Nat} {next : State} {file : OutputFile}
    (filling : Filling surroundings options root? made here before names number (state, file))
    (fast : ¬ Loose root? made names) (sure : Sure surroundings options root? made here next)
    (moves : Moves surroundings options root? made here state next) :
    Filling surroundings options root? made here before names number (next, file) where
  carries := ⟨sure, filling.carries.onward.trans moves.onward⟩
  keeps := ⟨moves.keeps.here.trans filling.keeps.here, fun _ held =>
    moves.keeps.directories _ (filling.keeps.directories _ held)⟩
  entry := moves.kept names number fast filling.entry
  same := filling.same

section Gets

variable (usable : Usable options.directory) (distinct : Distinct size made)
  (tame : surroundings.Tame options made here)
include usable distinct tame

/-- Asking the store keeps what both tiers have. -/
theorem keeps_get (key : Key) :
    Action.Keeps (Carries surroundings options root? made here before)
      ((store surroundings options).get key) := by
  intro state carries
  obtain ⟨next, ran, sure, moves⟩ := sure_get usable distinct tame carries.sure key
  rw [ran]
  exact ⟨sure, carries.onward.trans moves.onward⟩

/-- What is stored is got. -/
theorem get_of_stored (sure : Sure surroundings options root? made here state)
    (stored : Stored options.directory root? made state.files chunker content shape) {node : Tree}
    (member : node ∈ (chunker.treeAt shape.depth content).preorder) :
    ∃ held next, ((store surroundings options).get (chunker.nameOf node.data)).run state =
        (.ok (some held), next) ∧ held.data = some node.data ∧
      Sure surroundings options root? made here next ∧
      Moves surroundings options root? made here state next := by
  obtain ⟨next, ran, last, moves⟩ := sure_get usable distinct tame sure (chunker.nameOf node.data)
  have known := stored.known node member
  obtain ⟨lower, part, same⟩ := Chunker.exists_treeAt_of_mem shape.depth member
  have header : Header.decode node.data = .ok (UInt64.ofNat part.size) := by
    rw [same]
    exact Chunker.decode_treeAt lower part
  obtain ⟨held, answer, holds⟩ := Program.tierAnswers_of_onDisk usable distinct last.tiers known
    (moves.onward.disk _ _ known (stored.onDisk node member)) header
  exact ⟨held, next, by rw [ran, answer], holds, last, moves⟩

section File

variable {names : List String} {number : Nat} (fast : ¬ Loose root? made names)
  (apart : ∀ root key data, root? = some root → made key data → root ++ Disk.place key ≠ names)
include fast apart

/-- Whatever is read to a file, both tiers keep what they have. -/
theorem keeps_readToAllowed (allowance : Allowance) (root : Key) :
    Action.Keeps (Filling surroundings options root? made here before names number)
      (((⟨chunker, store surroundings options⟩ : Archive State).within .fst).readToAllowed allowance
        root (shell surroundings options chunker).filing) := by
  refine (Archive.relates_readToAllowed (Action.Keeps.compatible _) rfl (fun key => ⟨rfl, ?_⟩)
    (fun bytes => ⟨rfl, ?_⟩) allowance root).2
  · rintro ⟨state, file⟩ filling
    obtain ⟨next, ran, sure, moves⟩ := sure_get usable distinct tame filling.carries.sure key
    simp only [Archive.within, Store.within]
    rw [Action.run_within]
    simp only [Place.fst, ran]
    exact filling.moves fast sure moves
  · rintro ⟨state, file⟩ filling
    have rewrites := file.rewrites_write state.files bytes
    rw [filling.same] at rewrites
    exact filling.rewrites apart rewrites ((file.number_write state.files bytes).trans filling.same)

variable (spared : ∀ moment, names ≠ spot here (logAt surroundings options moment))
include spared

omit apart in
/-- While a file is written, both tiers have what is stored. -/
theorem provides_copying (stored : Stored options.directory root? made before.files chunker content shape)
    (limit : Nat) (written : Bytes) :
    ((⟨chunker, store surroundings options⟩ : Archive State).within .fst).store.Provides
      (Copying surroundings options root? made here before names number limit written)
      ((chunker.treeAt shape.depth content).postorder.map chunker.chunkOf).toArray := by
  rintro chunk member ⟨state, file⟩ copying
  obtain ⟨node, inside, rfl⟩ := List.mem_map.mp (List.mem_toArray.mp member)
  have filling := copying.filling
  obtain ⟨held, next, got, holds, sure, moves⟩ := get_of_stored usable distinct tame
    filling.carries.sure (stored.of_onDisk filling.carries.onward.disk) (Tree.mem_postorder.mp inside)
  obtain ⟨more, grown, none⟩ := moves.grown names number fast filling.entry
  rw [none spared, Array.append_empty] at grown
  rw [← filling.same] at grown
  refine ⟨held, (next, file), ?_, holds, filling.moves fast sure moves, fun room bound => ?_, ?_⟩
  · simp only [Archive.within, Store.within]
    rw [Action.run_within]
    simp only [Place.fst, Chunker.chunkOf, got]
  · simp only [grown]
    exact copying.roomy room bound
  · rw [← copying.all, OutputFile.written, OutputFile.written, grown]

omit usable distinct tame fast spared in
theorem realizes_filing (limit : Nat) (bytes : Bytes) :
    Action.Realizes (Copying surroundings options root? made here before names number limit)
      (Sink.upTo limit bytes) ((shell surroundings options chunker).filing bytes) := by
  rintro written ⟨state, file⟩ ⟨filling, roomy, rfl⟩ answer left took
  rw [Sink.upTo, Action.run_of] at took
  by_cases fits : (file.written state.files).size + bytes.size ≤ limit
  · rw [if_pos fits] at took
    cases took
    have rewrites := file.rewrites_write state.files bytes
    rw [filling.same] at rewrites
    obtain ⟨taken, all, still⟩ := OutputFile.write_of_roomy roomy fits
    refine ⟨(State.filesPlace.update (file.write state.files bytes).1 state,
      (file.write state.files bytes).2.1), ?_,
      filling.rewrites apart rewrites ((file.number_write state.files bytes).trans filling.same), still,
      all⟩
    rw [← taken]
    rfl
  · rw [if_neg fits] at took
    cases took

/-- What is stored is written to the file. -/
theorem run_readToAllowed_of_stored
    (small : chunker.keySize * chunker.branches * chunker.branches < wordLimit)
    (honest : chunker.hasher.Honest)
    (stored : Stored options.directory root? made before.files chunker content shape)
    {state : State} {file : OutputFile}
    (start : Copying surroundings options root? made here before names number content.size #[]
      (state, file)) :
    ∃ after, (((⟨chunker, store surroundings options⟩ : Archive State).within .fst).readToAllowed
        .usual (chunker.nameOf (chunker.treeAt shape.depth content).data)
        (shell surroundings options chunker).filing).run (state, file) = (.ok content.size, after) ∧
      Copying surroundings options root? made here before names number content.size content after := by
  have single := Chunker.small_of_square small
  have positive := Chunker.chunkSize_pos single
  have provides (written : Bytes) :
      ((⟨chunker, store surroundings options⟩ : Archive State).within .fst).store.Provides
        (Copying surroundings options root? made here before names number content.size written)
        ((chunker.treeAt shape.depth content).postorder.map chunker.chunkOf).toArray :=
    provides_copying usable distinct tame fast spared stored content.size written
  have whole := (provides #[]).undamaged start
  have streams : chunker.pieceSize ≠ 0 := by
    have branches := chunker.two_le_branches
    rw [Chunker.pieceSize_eq small]
    exact Nat.ne_of_gt (Nat.mul_pos positive (by omega))
  have fits : min chunker.pieceSize content.size ≤ mostHeld := by
    rw [Chunker.pieceSize_eq small, Nat.min_comm]
    exact Nat.le_trans (Nat.le_add_left _ _) stored.allowed.held
  have model := Archive.run_readToAllowed_upTo_of_undamaged positive stored.allowed.covered
    (fun node _ => honest node.data) whole (stored.allowed.size_data_lt single honest) streams fits
  have filing (bytes : Bytes) :
      Action.Realizes (Copying surroundings options root? made here before names number content.size)
        (Sink.upTo content.size bytes) ((shell surroundings options chunker).filing bytes) :=
    realizes_filing apart content.size bytes
  refine Archive.relates_readToAllowed_of_fetch (Action.Realizes.compatible _) ?_
    ((Store.supplies_of_provides provides).realizes_fetch chunker) filing .usual _ #[] (state, file)
    start _ _ model
  rfl

end File

/-- A read to a file outside of the base directory keeps what both tiers have. -/
theorem carries_readFile (sure : Sure surroundings options root? made here state) {path : String}
    (outside : Outside options.directory state.files path) (root : Key) (output : Bytes) :
    Carries surroundings options root? made here state
      (((shell surroundings options chunker).readFile root path).run (state, output)).2.1 := by
  have view : (shell surroundings options chunker).files.view state = state.files := rfl
  rw [Shell.run_readFile, view]
  rcases created : state.files.create path with reason | ⟨number, files⟩
  · exact .refl sure
  obtain ⟨names, opens⟩ := FileSystem.opens_of_create sure.tiers.truthful.sound created
  obtain ⟨apart, fast⟩ := outside.apart usable sure opens
  have opened := (Carries.refl sure).change
    (Disk.follows_of_opens sure.tiers.truthful apart opens) (FileSystem.widens_of_opens opens)
  have start : Filling surroundings options root? made here (State.filesPlace.update files state)
      names number (State.filesPlace.update files state,
        .opened number ((shell surroundings options chunker).room state)) :=
    ⟨.refl opened.sure, ⟨rfl, fun _ => id⟩, opens.entry, rfl⟩
  simp only
  rcases ran : ((((shell surroundings options chunker).archive.within .fst).readToAllowed
      (shell surroundings options chunker).allowance root
      (shell surroundings options chunker).filing).run
        ((shell surroundings options chunker).files.update files state,
          .opened number ((shell surroundings options chunker).room state))) with ⟨outcome, after, file⟩
  have ended : Filling surroundings options root? made here (State.filesPlace.update files state) names
      number (after, file) :=
    (keeps_readToAllowed usable distinct tame fast apart .usual root).run start ran
  have last := opened.trans (ended.close apart).carries
  cases outcome with
  | error fault =>
      simp only [Shell.state_of_run_reportRead]
      exact last
  | ok count => exact last

/-- Stored content is read to a file as it was, if there is room for it. -/
theorem run_readFile_of_stored (sure : Sure surroundings options root? made here state)
    (small : chunker.keySize * chunker.branches * chunker.branches < wordLimit)
    (honest : chunker.hasher.Honest)
    (stored : Stored options.directory root? made state.files chunker content shape) {path : String}
    (outside : Outside options.directory state.files path)
    (spares : Spares surroundings options state.files path) {number : Nat} {files : FileSystem}
    (created : state.files.create path = .ok (number, files))
    (roomy : ∀ room, surroundings.room state.moment = some room → content.size ≤ room)
    (output : Bytes) :
    ∃ after, ((shell surroundings options chunker).readFile
        (chunker.nameOf (chunker.treeAt shape.depth content).data) path).run (state, output) =
      (.ok (), (after, output ++ Bytes.ofText
        ("Wrote " ++ toString content.size ++ " bytes to " ++ path ++ "\n"))) ∧
      Sure surroundings options root? made here after ∧
      Safe surroundings options root? made here after.files path content := by
  have view : (shell surroundings options chunker).files.view state = state.files := rfl
  have rooms : (shell surroundings options chunker).room state = surroundings.room state.moment := rfl
  obtain ⟨names, opens⟩ := FileSystem.opens_of_create sure.tiers.truthful.sound created
  obtain ⟨apart, fast⟩ := outside.apart usable sure opens
  have spared (moment : Nat) : names ≠ spot here (logAt surroundings options moment) :=
    sure.stands ▸ spares moment names number opens.led
  have opened := (Carries.refl sure).change
    (Disk.follows_of_opens sure.tiers.truthful apart opens) (FileSystem.widens_of_opens opens)
  have start : Copying surroundings options root? made here (State.filesPlace.update files state)
      names number content.size #[] (State.filesPlace.update files state,
        .opened number (surroundings.room state.moment)) := by
    refine ⟨⟨.refl opened.sure, ⟨rfl, fun _ => id⟩, opens.entry, rfl⟩, fun room bound => ?_, ?_⟩
    · exact Nat.le_trans (roomy room bound) (Nat.le_add_left _ _)
    rw [OutputFile.written, OutputFile.opened, Array.append_empty]
    exact opens.empty
  obtain ⟨⟨after, file⟩, ran, filling, enough, all⟩ := run_readToAllowed_of_stored usable distinct
    tame fast apart spared small honest (stored.of_onDisk opened.onward.disk) start
  have closed := filling.close apart
  refine ⟨State.filesPlace.update (file.close after.files) after, ?_, closed.carries.sure,
    names, number, ?_, ?_, fast, spared⟩
  · rw [Shell.run_readFile, view, created, rooms]
    simp only
    have archives : (shell surroundings options chunker).archive =
        ⟨chunker, store surroundings options⟩ := rfl
    have allowances : (shell surroundings options chunker).allowance = .usual := rfl
    have places : (shell surroundings options chunker).files = State.filesPlace := rfl
    rw [archives, allowances, places, ran]
    rfl
  · have led : (State.filesPlace.update files state).files.locate path = .ok (.file names number) :=
      opens.leads
    exact FileSystem.locate_file_of_keeps closed.keeps led closed.entry
  · rw [← filling.same]
    exact (OutputFile.content_close enough (by rw [all])).trans all

/-- Storing a file keeps what both tiers have. -/
theorem carries_storeFile (sure : Sure surroundings options root? made here state)
    (positive : 0 < chunker.chunkSize) (honest : chunker.hasher.Honest) {path : String}
    (fast : ∀ names number, state.files.locate path = .ok (.file names number) →
      ¬ Loose root? made names)
    (among : ∀ names number shape node, state.files.locate path = .ok (.file names number) →
      chunker.shapeOf (state.files.content number).size = .ok shape →
      node ∈ (chunker.treeAt shape.depth (state.files.content number)).preorder →
        made (chunker.nameOf node.data) node.data) (output : Bytes) :
    Carries surroundings options root? made here state
      (((shell surroundings options chunker).storeFile path).run (state, output)).2.1 := by
  rw [Shell.run_storeFile]
  rcases run_keepFile usable distinct tame sure positive honest path fast among with
    ⟨fault, failed⟩ | ⟨shape, next, kept, -, sureNext, moves, -, -⟩
  · simp only [failed, Shell.state_of_run_report]
    exact .refl sure
  · simp only [kept]
    exact ⟨sureNext, moves.onward⟩

theorem keeps_hasAt (hex : String) :
    Action.Keeps (Carries surroundings options root? made here before)
      ((shell surroundings options chunker).hasAt hex) :=
  (Action.Keeps.lift _ _).bind fun key =>
    (keeps_get usable distinct tame key).bind fun _ => .pure _ _

theorem keeps_sizeAt (hex : String) :
    Action.Keeps (Carries surroundings options root? made here before)
      ((shell surroundings options chunker).sizeAt hex) :=
  (Action.Keeps.lift _ _).bind fun key =>
    ((Chunker.keeps_openRoot (keeps_get usable distinct tame) key).bind fun _ => .pure _ _).bind
      fun _ => .pure _ _

/-- Printing content keeps what both tiers have. -/
theorem carries_readOut (sure : Sure surroundings options root? made here state) (root : Key)
    (output : Bytes) : Carries surroundings options root? made here state
      (((shell surroundings options chunker).readOut root).run (state, output)).2.1 := by
  have keeps : Action.Keeps
      (fun pair : State × Bytes => Carries surroundings options root? made here state pair.1)
      ((((⟨chunker, store surroundings options⟩ : Archive State).within .fst).readToAllowed .usual root
        Shell.printing)) := by
    refine (Archive.relates_readToAllowed (Action.Keeps.compatible _) rfl (fun key => ⟨rfl, ?_⟩)
      (fun bytes => ⟨rfl, fun _ carries => carries⟩) .usual root).2
    rintro ⟨state, output⟩ carries
    exact keeps_get usable distinct tame key state carries
  rw [Shell.run_readOut]
  rcases ran : (((shell surroundings options chunker).archive.within .fst).readToAllowed
    (shell surroundings options chunker).allowance root Shell.printing).run (state, output) with
    ⟨outcome, after⟩
  have ended : Carries surroundings options root? made here state after.1 := keeps.run (.refl sure) ran
  cases outcome with
  | error fault =>
      simp only [Shell.state_of_run_reportRead]
      exact ended
  | ok count => exact ended

/-- The length of stored content is printed. -/
theorem run_size_of_stored (sure : Sure surroundings options root? made here state)
    (single : chunker.keySize * chunker.branches < wordLimit) (honest : chunker.hasher.Honest)
    (stored : Stored options.directory root? made state.files chunker content shape) {hex : String}
    (root : Key.ofHex hex = .ok (chunker.nameOf (chunker.treeAt shape.depth content).data))
    (output : Bytes) :
    ∃ after, ((shell surroundings options chunker).size hex).run (state, output) =
      (.ok (), (after, output ++ Bytes.ofText (toString content.size ++ "\n"))) := by
  have provides : (store surroundings options).Provides
      (fun later => Sure surroundings options root? made here later ∧
        Stored options.directory root? made later.files chunker content shape)
      ((chunker.treeAt shape.depth content).postorder.map chunker.chunkOf).toArray := by
    rintro chunk member later ⟨sureThen, storedThen⟩
    obtain ⟨node, inside, rfl⟩ := List.mem_map.mp (List.mem_toArray.mp member)
    obtain ⟨held, next, got, holds, last, moves⟩ := get_of_stored usable distinct tame sureThen
      storedThen (Tree.mem_postorder.mp inside)
    exact ⟨held, next, got, holds, last, storedThen.of_onDisk moves.onward.disk⟩
  obtain ⟨after, opened, -⟩ := Chunker.run_openRoot_of_provides (Chunker.chunkSize_pos single)
    stored.allowed.covered (fun node _ => honest node.data)
    (stored.allowed.size_data_lt single honest) provides ⟨sure, stored⟩
  have measured : ((shell surroundings options chunker).sizeAt hex).run state =
      (.ok content.size, after) := by
    have archives : (shell surroundings options chunker).archive =
        ⟨chunker, store surroundings options⟩ := rfl
    rw [Shell.sizeAt, Action.run_bind, Action.run_lift, root]
    simp only
    rw [archives, Action.run_bind, Archive.openAt, Chunker.join, Action.run_bind, opened]
    rfl
  exact ⟨after, by rw [Shell.run_size, measured]⟩

end Gets

/-- What a line may do with files: it stores contents of some kind only, and from no file through which
a chunk is written; and it reads to no file below the base directory. -/
structure Permits (chunker : Chunker) (contents : Bytes → Prop) (base : String) (files : FileSystem)
    (line : List String) : Prop where
  stores : ∀ (path : String) (rest names : List String) (number : Nat),
    line = "store" :: path :: rest → files.locate path = .ok (.file names number) →
      contents (files.content number) ∧ ∀ key data, chunker.Makes contents key data →
        names ≠ spot files.here (Disk.pathOf base key ++ ".tmp")
  reads : ∀ (hex path : String) (rest : List String) (root : Key),
    line = "read" :: hex :: path :: rest → Key.ofHex hex = .ok root → Outside base files path

section Lines

variable {contents : Bytes → Prop} (usable : Usable options.directory)
  (distinct : Distinct size (chunker.Makes contents))
  (tame : surroundings.Tame options (chunker.Makes contents) here)
  (sure : Sure surroundings options root? (chunker.Makes contents) here state)
include usable sure

theorem Permits.fast {line : List String} {path : String} {rest : List String}
    (permits : Permits chunker contents options.directory state.files line)
    (words : line = "store" :: path :: rest) (names : List String) (number : Nat)
    (led : state.files.locate path = .ok (.file names number)) :
    ¬ Loose root? (chunker.Makes contents) names := by
  rintro ⟨root, key, data, same, known, rfl⟩
  refine (permits.stores path rest _ number words led).2 key data known ?_
  rw [sure.stands, Disk.spot_beside usable, sure.root_eq same]

include distinct tame

/-- **Whatever a line does, both tiers keep what they have.** -/
theorem carries_obey (positive : 0 < chunker.chunkSize) (honest : chunker.hasher.Honest)
    {line : List String} (permits : Permits chunker contents options.directory state.files line)
    (output : Bytes) :
    Carries surroundings options root? (chunker.Makes contents) here state
      (((shell surroundings options chunker).obey line).run (state, output)).2.1 := by
  refine Shell.obey_induction (shell surroundings options chunker)
    (motive := fun action => Carries surroundings options root? (chunker.Makes contents) here state
      (action.run (state, output)).2.1) ?_ ?_ ?_ ?_ ?_ ?_ ?_ ?_
  · exact .refl sure
  · exact fun _ => .refl sure
  · intro path rest words
    refine carries_storeFile usable distinct tame sure positive honest
      (permits.fast usable sure words) ?_ output
    intro names number shape node led covered member
    exact Chunker.makes_of_mem positive honest (permits.stores path rest names number words led).1
      covered member
  · intro fault _
    rw [Shell.state_of_run_reportRead]
    exact .refl sure
  · exact fun root => carries_readOut usable distinct tame sure root output
  · exact fun hex root path rest words key =>
      carries_readFile usable distinct tame sure (permits.reads hex path rest root words key) root output
  · intro hex
    rw [Shell.run_has]
    rcases ran : ((shell surroundings options chunker).hasAt hex).run state with ⟨outcome, after⟩
    have kept := (keeps_hasAt usable distinct tame hex).run (.refl sure) ran
    cases outcome with
    | error fault =>
        simp only [Shell.state_of_run_report]
        exact kept
    | ok present => exact kept
  · intro hex
    rw [Shell.run_size]
    rcases ran : ((shell surroundings options chunker).sizeAt hex).run state with ⟨outcome, after⟩
    have kept := (keeps_sizeAt usable distinct tame hex).run (.refl sure) ran
    cases outcome with
    | error fault =>
        simp only [Shell.state_of_run_report]
        exact kept
    | ok size => exact kept

end Lines

end ChunkTree.Process
