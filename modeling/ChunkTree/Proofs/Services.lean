import ChunkTree.Proofs.Commands

/-!
# Serving lines

If no turn of a shell stores anything but contents of the chosen kind, or reads to a file below the base
directory, both tiers keep what they have from each turn on to the end of them all
(`Process.carries_serve`).  A turn that printed the root key of a file has put all its chunks into memory
(`Process.run_take_store`), and one that reads stored content, or asks for its length, answers with it
(`Process.run_take_read`, `Process.run_take_size`).
-/

namespace ChunkTree.Process

open Disk (Distinct Usable)

variable {surroundings : Surroundings} {options : Options} {here : List String}
  {root? : Option (List String)} {size : Nat} {state : State} {chunker : Chunker}
  {contents : Bytes → Prop} {content : Bytes} {shape : Shape}

/-- The files before a turn. -/
abbrev filesBefore (turn : Shell.Turn State) : FileSystem := turn.before.1.files

/-- The files after a turn. -/
abbrev filesAfter (turn : Shell.Turn State) : FileSystem := turn.after.1.files

/-- What is printed before a prompt is the key that another text before a prompt has. -/
theorem key_of_printed {output : Bytes} {printed root : Key}
    (same : output ++ Bytes.ofText (printed.toHex ++ "\n") ++ Bytes.ofText Shell.prompt =
      output ++ Bytes.ofText (root.toHex ++ "\n" ++ Shell.prompt)) : printed = root := by
  rw [Array.append_assoc, ← Bytes.ofText_append] at same
  have texts := Bytes.ofText_injective ((Array.append_right_inj output).mp same)
  rw [String.append_assoc, String.append_assoc] at texts
  exact Key.toHex_injective (String.append_left_inj _ |>.mp texts)

/-- A text that no key starts with is not printed as a key. -/
theorem printed_ne {output : Bytes} {text : String} {root : Key} {c : Char}
    (starts : text.toList.head? = some c) (other : ∀ value : Fin 16, Hex.digit value.val ≠ c)
    (inside : c ≠ '\n') :
    output ++ Bytes.ofText text ++ Bytes.ofText Shell.prompt ≠
      output ++ Bytes.ofText (root.toHex ++ "\n" ++ Shell.prompt) := by
  intro same
  rw [Array.append_assoc, ← Bytes.ofText_append] at same
  have texts := Bytes.ofText_injective ((Array.append_right_inj output).mp same)
  refine Key.toHex_line_ne root ?_ other inside texts
  rw [String.toList_append, List.head?_append, starts, Option.some_or]

theorem spelled (honest : chunker.hasher.Honest) {hex : String} {data : Bytes}
    (root : Key.ofHex hex = .ok (chunker.nameOf data)) : hex ≠ "" := by
  rintro rfl
  have size : #[].size = (chunker.hasher.digest data).size :=
    congrArg Key.size (Except.ok.inj ((rfl : Key.ofHex "" = .ok ⟨#[]⟩).symm.trans root))
  have long := honest data
  have positive := chunker.digestLength_pos
  simp only [List.size_toArray, List.length_nil] at size
  omega

section Turns

variable (usable : Usable options.directory) (distinct : Distinct size (chunker.Makes contents))
  (tame : surroundings.Tame options (chunker.Makes contents) here) (honest : chunker.hasher.Honest)
include usable distinct tame honest

/-- A line that is permitted keeps what both tiers have, and so does what happens until the next. -/
theorem carries_take (sure : Sure surroundings options root? (chunker.Makes contents) here state)
    (positive : 0 < chunker.chunkSize) {line : List Char}
    (permits : Permits chunker contents options.directory state.files (Shell.words line))
    (output : Bytes) :
    Carries surroundings options root? (chunker.Makes contents) here state
      (((shell surroundings options chunker).take line).run (state, output)).2.1 := by
  have carries := carries_obey usable distinct tame sure positive honest permits output
  rw [Shell.run_take]
  by_cases quit : (Shell.words line).head? = some "quit"
  · rw [if_pos quit]
    exact .refl sure
  rw [if_neg quit]
  rcases obeyed : ((shell surroundings options chunker).obey (Shell.words line)).run (state, output) with
    ⟨fault | _, after, printed⟩
  · rw [obeyed] at carries
    exact carries
  · rw [obeyed] at carries
    obtain ⟨last, moves⟩ := sure_pass usable distinct tame carries.sure (.inl rfl)
    exact carries.trans ⟨last, moves.onward⟩

/-- **What both tiers have, they keep.**  From each turn on, to the end of all turns. -/
theorem carries_serve (sure : Sure surroundings options root? (chunker.Makes contents) here state)
    (positive : 0 < chunker.chunkSize) (lines : List (List Char × List Char)) (output : Bytes)
    (permitted : ∀ turn ∈ (shell surroundings options chunker).turns lines (state, output),
      Permits chunker contents options.directory (filesBefore turn) turn.words) :
    Carries surroundings options root? (chunker.Makes contents) here state
        (((shell surroundings options chunker).serve lines).run (state, output)).2.1 ∧
      ∀ turn ∈ (shell surroundings options chunker).turns lines (state, output),
        (∃ line, turn.words = Shell.words line ∧
          turn.after = (((shell surroundings options chunker).take line).run turn.before).2) ∧
        Carries surroundings options root? (chunker.Makes contents) here state turn.before.1 ∧
        Carries surroundings options root? (chunker.Makes contents) here turn.after.1
          (((shell surroundings options chunker).serve lines).run (state, output)).2.1 := by
  induction lines generalizing state output with
  | nil => exact ⟨.refl sure, fun turn member => absurd member List.not_mem_nil⟩
  | cons pair others ih =>
      obtain ⟨line, rest⟩ := pair
      have first : Permits chunker contents options.directory state.files (Shell.words line) := by
        apply permitted ⟨_, (state, output), _⟩
        rw [Shell.turns]
        exact List.mem_cons_self
      have taken := carries_take usable distinct tame honest sure positive first output
      rcases (shell surroundings options chunker).serve_cons_cases line rest others (state, output) with
        ⟨⟨after, printed⟩, took, served, turns⟩ | ⟨served, turns⟩
      · rw [took] at taken
        rw [turns] at permitted ⊢
        rw [served]
        obtain ⟨last, each⟩ := ih taken.sure printed fun turn member =>
          permitted turn (List.mem_cons_of_mem _ member)
        refine ⟨taken.trans last, fun turn member => ?_⟩
        rcases List.mem_cons.mp member with rfl | member
        · exact ⟨⟨line, rfl, by rw [took]⟩, .refl sure, last⟩
        · obtain ⟨spoken, carries, onward⟩ := each turn member
          exact ⟨spoken, taken.trans carries, onward⟩
      · rw [turns, served]
        refine ⟨taken, fun turn member => ?_⟩
        rw [List.mem_singleton.mp member]
        exact ⟨⟨line, rfl, rfl⟩, .refl sure, .refl taken.sure⟩

variable (sure : Sure surroundings options root? (chunker.Makes contents) here state)
include sure

/-- A turn that printed the root key of a file has put the chunks of its content into memory. -/
theorem run_take_store (positive : 0 < chunker.chunkSize) {line : List Char} {path : String}
    {rest : List String} (words : Shell.words line = "store" :: path :: rest)
    (permits : Permits chunker contents options.directory state.files (Shell.words line))
    {output : Bytes} {root : Key}
    (printed : (((shell surroundings options chunker).take line).run (state, output)).2.2 =
      output ++ Bytes.ofText (root.toHex ++ "\n" ++ Shell.prompt)) :
    ∃ shape, root = chunker.nameOf (chunker.treeAt shape.depth (state.files.read path)).data ∧
      Allowed chunker (state.files.read path) shape ∧
      (∀ node ∈ (chunker.treeAt shape.depth (state.files.read path)).preorder,
        chunker.Makes contents (chunker.nameOf node.data) node.data) ∧
      (((shell surroundings options chunker).take line).run (state, output)).2.1.tiers.1.1.Serves chunker
        (chunker.treeAt shape.depth (state.files.read path)) := by
  rw [words] at permits
  rw [Shell.run_take, words, if_neg (by simp), Shell.obey_store] at printed ⊢
  by_cases empty : path = ""
  · rw [if_pos empty] at printed
    exact absurd printed (printed_ne (c := 'I') (by decide) (by decide) (by decide))
  rw [if_neg empty, Shell.run_storeFile] at printed ⊢
  rcases run_keepFile usable distinct tame sure positive honest path
    (permits.fast usable sure rfl)
    (fun names number shape node led covered member => Chunker.makes_of_mem positive honest
      (permits.stores path rest names number rfl led).1 covered member) with
    ⟨fault, failed⟩ | ⟨shape, next, kept, allowed, sureNext, moves, serves, known⟩
  · simp only [failed] at printed
    unfold Shell.report at printed
    by_cases foreign : fault = .foreign
    · rw [if_pos foreign] at printed
      have empty : root.toHex ++ "\n" ++ Shell.prompt = "" :=
        Bytes.ofText_injective (Array.self_eq_append_right.mp printed)
      have texts := congrArg String.toList empty
      simp at texts
    · rw [if_neg foreign] at printed
      have starts : ("Error storing file" ++ ": " ++ fault.message ++ "\n").toList.head? = some 'E' := by
        simp [String.toList_append]
      exact absurd printed (printed_ne starts (by decide) (by decide))
  · rw [kept] at printed ⊢
    obtain ⟨-, further⟩ := sure_pass usable distinct tame sureNext (.inl rfl)
    refine ⟨shape, (key_of_printed printed).symm, allowed, known, fun node member => ?_⟩
    obtain ⟨held, bound, holds⟩ := serves node member
    exact ⟨held, further.onward.memory _ _ bound, holds⟩

/-- A turn that reads stored content to a file with room for it leaves it there, unless the file is below the
base directory or the log. -/
theorem run_take_read (small : chunker.keySize * chunker.branches * chunker.branches < wordLimit)
    (stored : Stored options.directory root? (chunker.Makes contents) state.files chunker content shape)
    {line : List Char} {hex path : String} {rest : List String}
    (words : Shell.words line = "read" :: hex :: path :: rest)
    (root : Key.ofHex hex = .ok (chunker.nameOf (chunker.treeAt shape.depth content).data))
    (permits : Permits chunker contents options.directory state.files (Shell.words line))
    (spares : Spares surroundings options state.files path)
    (created : (state.files.create path).isOk)
    (roomy : ∀ room, surroundings.room state.moment = some room → content.size ≤ room)
    (output : Bytes) :
    ∃ after, ((shell surroundings options chunker).take line).run (state, output) =
      (.ok true, (after, output ++ Bytes.ofText ("Wrote " ++ toString content.size ++ " bytes to " ++
        path ++ "\n" ++ Shell.prompt))) ∧
      Sure surroundings options root? (chunker.Makes contents) here after ∧
      Safe surroundings options root? (chunker.Makes contents) here after.files path content := by
  rw [words] at permits
  have outside := permits.reads hex path rest _ rfl root
  rcases opened : state.files.create path with reason | ⟨number, files⟩
  · rw [opened] at created
    cases created
  have filled : path ≠ "" := by
    rintro rfl
    cases opened
  obtain ⟨after, ran, last, safe⟩ := run_readFile_of_stored usable distinct tame sure small honest stored
    outside spares opened roomy output
  obtain ⟨rested, moves⟩ := sure_pass usable distinct tame last (.inl rfl)
  refine ⟨_, ?_, rested, safe.of_moves last.tiers.truthful.sound moves⟩
  rw [Shell.run_take, words, if_neg (by simp), Shell.obey_read, if_neg (spelled honest root),
    Shell.read, root]
  simp only [if_neg filled, ran]
  rw [Array.append_assoc, ← Bytes.ofText_append]
  rfl

/-- A turn that asks for the length of stored content is answered with it. -/
theorem run_take_size (single : chunker.keySize * chunker.branches < wordLimit)
    (stored : Stored options.directory root? (chunker.Makes contents) state.files chunker content shape)
    {line : List Char} {hex : String} {rest : List String}
    (words : Shell.words line = "size" :: hex :: rest)
    (root : Key.ofHex hex = .ok (chunker.nameOf (chunker.treeAt shape.depth content).data))
    (output : Bytes) :
    ∃ after, ((shell surroundings options chunker).take line).run (state, output) =
      (.ok true, (after, output ++
        Bytes.ofText (toString content.size ++ "\n" ++ Shell.prompt))) := by
  obtain ⟨after, ran⟩ :=
    run_size_of_stored usable distinct tame sure single honest stored root output
  refine ⟨(shell surroundings options chunker).idle after, ?_⟩
  rw [Shell.run_take, words, if_neg (by simp), Shell.obey_size, if_neg (spelled honest root), ran]
  simp only
  rw [Array.append_assoc, ← Bytes.ofText_append]

end Turns

end ChunkTree.Process
