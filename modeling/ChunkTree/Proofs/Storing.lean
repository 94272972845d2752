import ChunkTree.Proofs.Moments
import ChunkTree.Proofs.Provided
import ChunkTree.Proofs.Recording
import ChunkTree.Proofs.Turns

/-!
# Storing files

While a file is stored, the log may be added to it, but what it had when it was opened stays.  So what is
stored is that content (`Process.agrees_file`): its chunks are handed over one by one, whatever happens in
between, and from then on all of them are in memory (`Process.run_keepFile`).
-/

namespace ChunkTree

namespace Chunker

/-- These are the key and the data of a chunk of one of these contents. -/
def Makes (chunker : Chunker) (contents : Bytes → Prop) (key : Key) (data : Bytes) : Prop :=
  ∃ content root chunks, contents content ∧ chunker.chunksOf content = .ok (root, chunks) ∧
    ∃ chunk ∈ chunks, chunk.key = key ∧ chunk.data = some data

variable {chunker : Chunker} {contents : Bytes → Prop} {content : Bytes} {shape : Shape}

theorem makes_of_mem (positive : 0 < chunker.chunkSize) (honest : chunker.hasher.Honest)
    (among : contents content) (covered : chunker.shapeOf content.size = .ok shape) {node : Tree}
    (member : node ∈ (chunker.treeAt shape.depth content).preorder) :
    chunker.Makes contents (chunker.nameOf node.data) node.data := by
  have chunks := chunksOf_of_shapeOf positive honest covered
  exact ⟨content, _, _, among, chunks, chunker.chunkOf node, chunkOf_mem_postorder member, rfl, rfl⟩

/-- A collector that takes only some chunks, and keeps those that it has taken. -/
def only (chunks : List Chunk) : Collector (List Chunk) := fun chunk => .of fun taken =>
  if chunk ∈ chunks then (.ok (), taken ++ [chunk]) else (.error .foreign, taken)

/-- Trees whose chunks are taken are all handed over. -/
theorem run_forM_deliver_only {chunks : List Chunk} {trees : List Tree}
    (each : ∀ tree ∈ trees, (chunker.hasher.digest tree.data).size = chunker.keySize ∧
      chunker.chunkOf tree ∈ chunks) (taken : List Chunk) :
    (forM trees (chunker.deliver (only chunks)) : Action _ Unit).run taken =
      (.ok (), taken ++ trees.map chunker.chunkOf) := by
  induction trees generalizing taken with
  | nil =>
      rw [List.map_nil, List.append_nil]
      rfl
  | cons tree rest ih =>
      obtain ⟨long, member⟩ := each tree List.mem_cons_self
      have first : (only chunks (chunker.chunkOf tree)).run taken =
          (.ok (), taken ++ [chunker.chunkOf tree]) := by
        rw [only, Action.run_of, if_pos member]
      rw [List.forM_cons, Action.run_bind, run_deliver, if_pos long, first]
      simp only
      rw [ih fun other inside => each other (List.mem_cons_of_mem _ inside), List.map_cons,
        List.append_assoc, List.singleton_append]

end Chunker

namespace Process

open Disk (Distinct Loose Usable)

variable {surroundings : Surroundings} {options : Options} {made : Key → Bytes → Prop}
  {here : List String} {root? : Option (List String)} {size : Nat} {before state : State}
  {chunker : Chunker} {content : Bytes}

/-- From a state of a process to one in which both tiers have what they have to have, and these chunks are
in memory. -/
structure Delivers (surroundings : Surroundings) (options : Options) (root? : Option (List String))
    (made : Key → Bytes → Prop) (here : List String) (before : State) (chunks : List Chunk)
    (state : State) : Prop where
  sure : Sure surroundings options root? made here state
  moves : Moves surroundings options root? made here before state
  bound : ∀ chunk ∈ chunks, ∃ held, state.tiers.1.1[chunk.key]? = some held ∧ held.data = chunk.data

/-- The bytes that a file had are read from it, whatever happens in between. -/
theorem agrees_file (path : String) {names : List String} {number : Nat}
    (entry : before.files.entries[names]? = some (.file number)) (fast : ¬ Loose root? made names)
    (same : before.files.content number = content) :
    Section.Agrees (fun _ => Action.Realizes (Delivers surroundings options root? made here before))
      (.ofBytes content)
      ((Section.whole (Source.ofFile path number) content.size).within State.filesPlace) := by
  refine ⟨rfl, fun position count inside seen state delivers answer left read => ?_⟩
  obtain ⟨more, grown, -⟩ := delivers.moves.grown names number fast entry
  have inside : position + count ≤ content.size := inside
  rw [(Section.holds_ofBytes content).readAt_eq position count inside] at read
  cases read
  refine ⟨state, ?_, delivers⟩
  rw [Section.readAt_of_le _ inside]
  by_cases empty : count = 0
  · rw [if_pos empty, empty, Bytes.slice_zero]
    rfl
  · have there : ¬ (state.files.content number).size < position + count := by
      rw [grown, same, Array.size_append]
      omega
    have read : (Source.ofFile path number position count).run state.files =
        (.ok (content.slice position count), state.files) := by
      rw [Source.ofFile, Action.run_bind, Action.run_state]
      simp only
      rw [if_neg there, grown, same, Bytes.slice_append_left _ _ inside]
      rfl
    rw [if_neg empty]
    simp only [Section.within, Section.whole, Nat.zero_add]
    rw [Action.run_within, State.view_filesPlace, read]
    rfl

/-- No run of bytes longer than this is held at once by the program. -/
def mostHeld : Nat := 17179869184

/-- Content that has a tree whose leaves may be held. -/
structure Allowed (chunker : Chunker) (content : Bytes) (shape : Shape) : Prop where
  covered : chunker.shapeOf content.size = .ok shape
  held : Header.length + chunker.longestLeaf content.size ≤ mostHeld

theorem run_checkTree (chunker : Chunker) (content : Bytes) (state : State) :
    (∃ fault, (Allowance.usual.checkTree chunker content.size).run state = (.error fault, state)) ∨
      (Allowance.usual.checkTree chunker content.size).run state = (.ok (), state) ∧
        ∃ shape, Allowed chunker content shape := by
  rw [Allowance.checkTree, Action.run_bind, Action.run_lift]
  cases covered : chunker.shapeOf content.size with
  | error fault => exact .inl ⟨fault, rfl⟩
  | ok shape =>
      simp only [Allowance.check, Allowance.usual]
      by_cases fits : Header.length + chunker.longestLeaf content.size ≤ 17179869184
      · rw [if_pos fits]
        exact .inr ⟨rfl, shape, covered, fits⟩
      · rw [if_neg fits]
        left
        by_cases counted : Header.length + chunker.longestLeaf content.size ≤ Allowance.longestRun
        · rw [if_pos counted]
          exact ⟨_, rfl⟩
        · rw [if_neg counted]
          exact ⟨_, rfl⟩

section Keep

variable (usable : Usable options.directory) (distinct : Distinct size made)
  (tame : surroundings.Tame options made here)
include usable distinct tame

/-- Chunks of the chosen kind are put into memory. -/
theorem realizes_put {chunks : List Chunk}
    (known : ∀ chunk ∈ chunks, ∃ data, chunk.data = some data ∧ made chunk.key data) (chunk : Chunk) :
    Action.Realizes (Delivers surroundings options root? made here before)
      (Chunker.only chunks chunk) ((store surroundings options).put chunk) := by
  intro seen state delivers answer left taken
  rw [Chunker.only, Action.run_of] at taken
  by_cases member : chunk ∈ chunks
  · rw [if_pos member] at taken
    cases taken
    obtain ⟨data, holds, made⟩ := known chunk member
    obtain ⟨next, put, sure, moves, bound, found, same⟩ :=
      sure_put usable distinct tame delivers.sure holds made
    refine ⟨next, put, sure, delivers.moves.trans moves, fun other taken => ?_⟩
    rcases List.mem_append.mp taken with earlier | last
    · obtain ⟨held, old, data⟩ := delivers.bound other earlier
      exact ⟨held, moves.onward.memory _ _ old, data⟩
    · rw [List.mem_singleton.mp last, holds]
      exact ⟨bound, found, same⟩
  · rw [if_neg member] at taken
    cases taken

variable (sure : Sure surroundings options root? made here state)
include sure

/-- A file that is kept has all its chunks in memory afterwards. -/
theorem run_keepFile (positive : 0 < chunker.chunkSize) (honest : chunker.hasher.Honest)
    (path : String)
    (fast : ∀ names number, state.files.locate path = .ok (.file names number) →
      ¬ Loose root? made names)
    (among : ∀ names number shape node, state.files.locate path = .ok (.file names number) →
      chunker.shapeOf (state.files.content number).size = .ok shape →
      node ∈ (chunker.treeAt shape.depth (state.files.content number)).preorder →
        made (chunker.nameOf node.data) node.data) :
    (∃ fault, ((shell surroundings options chunker).keepFile path).run state = (.error fault, state)) ∨
      ∃ shape next, ((shell surroundings options chunker).keepFile path).run state =
          (.ok (chunker.nameOf (chunker.treeAt shape.depth (state.files.read path)).data), next) ∧
        Allowed chunker (state.files.read path) shape ∧
        Sure surroundings options root? made here next ∧
        Moves surroundings options root? made here state next ∧
        next.tiers.1.1.Serves chunker (chunker.treeAt shape.depth (state.files.read path)) ∧
        ∀ node ∈ (chunker.treeAt shape.depth (state.files.read path)).preorder,
          made (chunker.nameOf node.data) node.data := by
  have back : State.filesPlace.update state.files state = state := rfl
  have same : (shell surroundings options chunker).keepFile path = (do
      let part ← (Section.ofFile path).within State.filesPlace
      (⟨chunker, store surroundings options⟩ : Archive State).keepAllowed .usual
        (part.within State.filesPlace)) := rfl
  rw [same, Action.run_bind, Action.run_within, State.view_filesPlace]
  rcases Section.run_ofFile path state.files with ⟨fault, failed⟩ | ⟨names, number, led, opened⟩
  · rw [failed]
    exact .inl ⟨fault, rfl⟩
  obtain ⟨content, same⟩ : ∃ content, state.files.content number = content := ⟨_, rfl⟩
  have read : state.files.read path = content := FileSystem.Holds.read_eq ⟨_, _, led, same⟩
  rw [same] at opened
  rw [read, opened]
  simp only [back]
  have length : ((Section.whole (Source.ofFile path number) content.size).within
      State.filesPlace).size = content.size := rfl
  rw [Archive.keepAllowed, Action.run_bind, length]
  rcases run_checkTree chunker content state with ⟨fault, refused⟩ | ⟨passed, shape, allowed⟩
  · rw [refused]
    exact .inl ⟨fault, rfl⟩
  right
  have tree : chunker.treeOf content = .ok (chunker.treeAt shape.depth content) :=
    Chunker.treeOf_eq_ok_iff.mpr ⟨shape, allowed.covered, rfl⟩
  have known : ∀ node ∈ (chunker.treeAt shape.depth content).preorder,
      made (chunker.nameOf node.data) node.data := by
    intro node member
    have here := among names number shape node led
    rw [same] at here
    exact here allowed.covered member
  obtain ⟨trees, nodes⟩ : ∃ trees, (chunker.treeAt shape.depth content).postorder = trees := ⟨_, rfl⟩
  have model : (chunker.split (.ofBytes content)
      (some (Chunker.only (trees.map chunker.chunkOf)))).run [] =
        (.ok (chunker.nameOf (chunker.treeAt shape.depth content).data),
          trees.map chunker.chunkOf) := by
    rw [Chunker.split_eq positive (Section.holds_ofBytes content) tree, nodes, Action.run_bind,
      Chunker.run_forM_deliver_only fun node member =>
        ⟨honest node.data, List.mem_map_of_mem member⟩]
    rfl
  have puts (chunk : Chunk) : Action.Realizes (Delivers surroundings options root? made here state)
      (Chunker.only (trees.map chunker.chunkOf) chunk) ((store surroundings options).put chunk) := by
    refine realizes_put usable distinct tame (fun other member => ?_) chunk
    obtain ⟨node, inside, rfl⟩ := List.mem_map.mp member
    rw [← nodes, Tree.mem_postorder] at inside
    exact ⟨node.data, rfl, known node inside⟩
  have related : Action.Realizes (Delivers surroundings options root? made here state)
      (chunker.split (.ofBytes content) (some (Chunker.only (trees.map chunker.chunkOf))))
      (chunker.split ((Section.whole (Source.ofFile path number) content.size).within
        State.filesPlace) (some (store surroundings options).put)) :=
    Chunker.relates_split (Action.Realizes.compatible _) (fun chunk _ => puts chunk)
      (agrees_file path (FileSystem.placed_of_locate sure.tiers.truthful.sound led) (fast _ _ led) same)
  obtain ⟨next, kept, delivers⟩ := related [] state
    ⟨sure, .refl state, fun _ member => absurd member List.not_mem_nil⟩ _ _ model
  refine ⟨shape, next, ?_, allowed, delivers.sure, delivers.moves, fun node member => ?_, known⟩
  · rw [passed]
    exact kept
  · refine delivers.bound (chunker.chunkOf node) (List.mem_map_of_mem ?_)
    rw [← nodes]
    exact Tree.mem_postorder.mpr member

end Keep

end Process

end ChunkTree
