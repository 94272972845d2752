import ChunkTree.Proofs.KeyTexts
import ChunkTree.Shell

/-!
# Turns of the shell

A shell takes its lines in turns (`Shell.turns`), each from where the one before left it
(`Shell.serve_cons_cases`).  What is said of each command is said of each line
(`Shell.obey_induction`), and what a command does to the state is done by an action on that alone.
-/

namespace ChunkTree

variable {σ : Type}

namespace Key

/-- No line that starts otherwise is a key. -/
theorem toHex_line_ne (key : Key) {c : Char} {text rest : String}
    (starts : text.toList.head? = some c) (other : ∀ value : Fin 16, Hex.digit value.val ≠ c)
    (inside : c ≠ '\n') : text ≠ key.toHex ++ "\n" ++ rest := by
  rintro rfl
  have digits := Hex.isDigits_encode key.bytes.toList
  simp only [toHex, String.toList_append, String.toList_ofList, List.append_assoc] at starts
  rcases text : Hex.encode key.bytes.toList with _ | ⟨first, others⟩
  · rw [text] at starts
    exact inside (Option.some.inj starts).symm
  · rw [text] at starts digits
    obtain ⟨value, small, same⟩ := digits first List.mem_cons_self
    exact other ⟨value, small⟩ (same.symm.trans (Option.some.inj starts))

theorem ofHex_ne_foreign (text : String) : Key.ofHex text ≠ .error .foreign := by
  unfold ofHex
  by_cases odd : text.utf8ByteSize % 2 ≠ 0
  · rw [if_pos odd]
    simp
  · rw [if_neg odd]
    cases Hex.decode? text.toList with
    | none => simp
    | some bytes => simp

end Key

namespace Shell

/-- A line that was taken, with the state and the output before and after. -/
structure Turn (σ : Type) where
  words : List String
  before : σ × Bytes
  after : σ × Bytes

/-- In this turn a text was put out, and nothing else. -/
def Turn.Prints (turn : Turn σ) (text : String) : Prop :=
  turn.after.2 = turn.before.2 ++ Bytes.ofText text

variable (shell : Shell σ)

/-- The lines that the shell takes, as long as it goes on. -/
def turns : List (List Char × List Char) → σ × Bytes → List (Turn σ)
  | [], _ => []
  | (line, _) :: others, before =>
    ⟨words line, before, ((shell.take line).run before).2⟩ ::
      match (shell.take line).run before with
      | (.ok true, after) => turns others after
      | _ => []

/-- What is said of every command that a line can be is said of the line. -/
theorem obey_induction {motive : Action (σ × Bytes) Unit → Prop} {line : List String}
    (nothing : motive (pure ())) (prints : ∀ text, motive (print text))
    (stores : ∀ path rest, line = "store" :: path :: rest → motive (shell.storeFile path))
    (reports : ∀ fault, fault ≠ .foreign → motive (reportRead fault))
    (streams : ∀ root, motive (shell.readOut root))
    (writes : ∀ hex root path rest, line = "read" :: hex :: path :: rest → Key.ofHex hex = .ok root →
      motive (shell.readFile root path))
    (asks : ∀ hex, motive (shell.has hex)) (measures : ∀ hex, motive (shell.size hex)) :
    motive (shell.obey line) := by
  rcases line with _ | ⟨command, arguments⟩
  · exact nothing
  rw [obey, respond.eq_def]
  by_cases help : command = "help"
  · rw [if_pos help]
    exact prints _
  rcases arguments with _ | ⟨argument, more⟩
  · rw [if_neg help, List.getD_nil, if_pos rfl]
    exact prints _
  rw [List.getD_cons_zero]
  by_cases empty : argument = ""
  · rw [if_neg help, if_pos empty]
    exact prints _
  rw [if_neg help, if_neg empty]
  split
  · exact stores _ _ rfl
  · rw [read]
    rcases key : Key.ofHex argument with fault | root
    · refine reports fault ?_
      rintro rfl
      exact Key.ofHex_ne_foreign _ key
    · rcases more with _ | ⟨path, rest⟩
      · exact streams root
      simp only [List.getD_cons_succ, List.getD_cons_zero]
      by_cases printed : path = ""
      · rw [if_pos printed]
        exact streams root
      · rw [if_neg printed]
        exact writes argument root path rest rfl key
  · exact asks _
  · exact measures _
  · exact prints _

section Commands

/-- Printing leaves what the shell is around. -/
theorem state_of_run_report (label : String) (fault : Fault) (before : σ × Bytes) :
    ((report label fault).run before).2.1 = before.1 := by
  rw [report]
  by_cases foreign : fault = .foreign
  · rw [if_pos foreign]
    rfl
  · rw [if_neg foreign]
    rfl

theorem state_of_run_reportRead (fault : Fault) (before : σ × Bytes) :
    ((reportRead fault).run before).2.1 = before.1 := by
  unfold reportRead
  split
  · rfl
  · exact state_of_run_report _ _ before

/-- Keeps the file at a path. -/
def keepFile (path : String) : Action σ Key := do
  let part ← (Section.ofFile path).within shell.files
  shell.archive.keepAllowed shell.allowance (part.within shell.files)

theorem run_storeFile (path : String) (state : σ) (output : Bytes) :
    (shell.storeFile path).run (state, output) = match (shell.keepFile path).run state with
      | (.ok root, after) => (.ok (), (after, output ++ Bytes.ofText (root.toHex ++ "\n")))
      | (.error fault, after) => (report "Error storing file" fault).run (after, output) := by
  rw [storeFile, Action.run_bind, Action.run_attempt, Action.run_within, ← keepFile]
  simp only [Place.fst]
  rcases (shell.keepFile path).run state with ⟨fault | root, after⟩
  · rfl
  · rfl

/-- Whether the store has a chunk. -/
def hasAt (hex : String) : Action σ Bool := do
  return (← shell.store.get (← .lift (Key.ofHex hex))).isSome

theorem run_has (hex : String) (state : σ) (output : Bytes) :
    (shell.has hex).run (state, output) = match (shell.hasAt hex).run state with
      | (.ok present, after) =>
        (.ok (), (after, output ++ Bytes.ofText (if present then "yes\n" else "no\n")))
      | (.error fault, after) => (report "Error looking up key" fault).run (after, output) := by
  rw [has, Action.run_bind, Action.run_attempt, Action.run_within, ← hasAt]
  simp only [Place.fst]
  rcases (shell.hasAt hex).run state with ⟨fault | _ | _, after⟩
  · rfl
  · rfl
  · rfl

/-- The length of the content under a root key. -/
def sizeAt (hex : String) : Action σ Nat := do
  return (← shell.archive.openAt (← .lift (Key.ofHex hex))).size

theorem run_size (hex : String) (state : σ) (output : Bytes) :
    (shell.size hex).run (state, output) = match (shell.sizeAt hex).run state with
      | (.ok size, after) => (.ok (), (after, output ++ Bytes.ofText (toString size ++ "\n")))
      | (.error fault, after) => (report "Error reading size" fault).run (after, output) := by
  rw [size, Action.run_bind, Action.run_attempt, Action.run_within, ← sizeAt]
  simp only [Place.fst]
  rcases (shell.sizeAt hex).run state with ⟨fault | size, after⟩
  · rfl
  · rfl

/-- The output of a read to a file. -/
def filing : Sink (σ × OutputFile) := fun bytes => .of fun (state, file) =>
  let (files, file, taken) := file.write (shell.files.view state) bytes
  (.ok taken, (shell.files.update files state, file))

theorem run_fill (root : Key) (file : OutputFile) (state : σ) :
    (shell.fill root file).run state =
      match ((shell.archive.within .fst).readToAllowed shell.allowance root shell.filing).run
        (state, file) with
      | (outcome, (after, file)) =>
        (.ok outcome, shell.files.update (file.close (shell.files.view after)) after) :=
  rfl

theorem run_readFile (root : Key) (path : String) (state : σ) (output : Bytes) :
    (shell.readFile root path).run (state, output) = match (shell.files.view state).create path with
      | .error _ => (.ok (), (state, output ++
          Bytes.ofText ("Error reading content: cannot open " ++ path ++ "\n")))
      | .ok (number, files) =>
        match ((shell.archive.within .fst).readToAllowed shell.allowance root shell.filing).run
          (shell.files.update files state, .opened number (shell.room state)) with
        | (.ok count, (after, file)) =>
          (.ok (), (shell.files.update (file.close (shell.files.view after)) after, output ++
            Bytes.ofText ("Wrote " ++ toString count ++ " bytes to " ++ path ++ "\n")))
        | (.error fault, (after, file)) => (reportRead fault).run
            (shell.files.update (file.close (shell.files.view after)) after, output) := by
  rw [readFile, Action.run_bind, Action.run_state]
  simp only
  rcases (shell.files.view state).create path with reason | ⟨number, files⟩
  · rfl
  simp only
  have filled := shell.run_fill root (.opened number (shell.room state)) (shell.files.update files state)
  have view (changed : σ) : (Place.fst : Place (σ × Bytes) σ).view (changed, output) = changed := rfl
  rcases ran : ((shell.archive.within .fst).readToAllowed shell.allowance root shell.filing).run
    (shell.files.update files state, .opened number (shell.room state)) with ⟨outcome, after, file⟩
  rw [ran] at filled
  rw [Action.run_bind, Action.run_update]
  simp only
  rw [Action.run_bind, Action.run_within, view, filled]
  cases outcome with
  | error fault => rfl
  | ok count => rfl

/-- The output of a read that is printed. -/
def printing : Sink (σ × Bytes) := fun bytes => do
  .update fun (state, output) => (state, output ++ bytes)
  return true

theorem run_readOut (root : Key) (before : σ × Bytes) :
    (shell.readOut root).run before =
      match ((shell.archive.within .fst).readToAllowed shell.allowance root printing).run before with
      | (.ok _, after) => (print "\n").run after
      | (.error fault, after) => (reportRead fault).run after := by
  refine (Action.run_bind ((shell.archive.within .fst).readToAllowed shell.allowance root
    printing).attempt _ before).trans ?_
  rw [Action.run_attempt]
  rcases ((shell.archive.within .fst).readToAllowed shell.allowance root printing).run before with
    ⟨fault | count, after⟩
  · rfl
  · rfl

end Commands

/-- What is printed for a command without an argument. -/
def usageText : String := "Invalid input. Usage: <command> <argument>, try 'help'\n"

theorem obey_store (path : String) (rest : List String) :
    shell.obey ("store" :: path :: rest) =
      if path = "" then print usageText else shell.storeFile path := by
  rw [obey, respond.eq_def, if_neg (by decide)]
  rfl

theorem obey_size (hex : String) (rest : List String) :
    shell.obey ("size" :: hex :: rest) = if hex = "" then print usageText else shell.size hex := by
  rw [obey, respond.eq_def, if_neg (by decide)]
  rfl

theorem obey_read (hex path : String) (rest : List String) :
    shell.obey ("read" :: hex :: path :: rest) =
      if hex = "" then print usageText else shell.read hex path := by
  rw [obey, respond.eq_def, if_neg (by decide)]
  rfl

theorem turns_singleton (line rest : List Char) (before : σ × Bytes) :
    shell.turns [(line, rest)] before =
      [⟨words line, before, ((shell.take line).run before).2⟩] := by
  rw [turns]
  rcases (shell.take line).run before with ⟨fault | _ | _, after⟩
  · rfl
  · rfl
  · rfl

/-- How a line is taken, by what comes of the command. -/
theorem run_take (line : List Char) (before : σ × Bytes) :
    (shell.take line).run before =
      if (words line).head? = some "quit" then (.ok false, before)
      else match (shell.obey (words line)).run before with
        | (.ok (), (state, output)) =>
          (.ok true, (shell.idle state, output ++ Bytes.ofText prompt))
        | (.error fault, after) => (.error fault, after) := by
  rw [take]
  by_cases quit : (words line).head? = some "quit"
  · rw [if_pos quit, if_pos quit]
    rfl
  · rw [if_neg quit, if_neg quit, Action.run_bind]
    rcases (shell.obey (words line)).run before with ⟨fault | _, after⟩
    · rfl
    · rfl

/-- The lines that follow are served only if the shell goes on. -/
theorem serve_cons_cases (line rest : List Char) (others : List (List Char × List Char))
    (before : σ × Bytes) :
    (∃ after, (shell.take line).run before = (.ok true, after) ∧
      (shell.serve ((line, rest) :: others)).run before = (shell.serve others).run after ∧
      shell.turns ((line, rest) :: others) before =
        ⟨words line, before, after⟩ :: shell.turns others after) ∨
    ((shell.serve ((line, rest) :: others)).run before).2 = ((shell.take line).run before).2 ∧
      shell.turns ((line, rest) :: others) before =
        [⟨words line, before, ((shell.take line).run before).2⟩] := by
  rw [serve, turns, Action.run_bind]
  rcases (shell.take line).run before with ⟨fault | _ | _, after⟩
  · exact .inr ⟨rfl, rfl⟩
  · exact .inr ⟨rfl, rfl⟩
  · exact .inl ⟨after, rfl, rfl, rfl⟩

/-- Serving lines ends with what the last turn leaves. -/
theorem run_serve_of_getLast? {lines : List (List Char × List Char)} {before : σ × Bytes}
    {turn : Turn σ} (last : (shell.turns lines before).getLast? = some turn) :
    ((shell.serve lines).run before).2 = turn.after := by
  induction lines generalizing before with
  | nil => cases last
  | cons pair others ih =>
      obtain ⟨line, rest⟩ := pair
      rcases shell.serve_cons_cases line rest others before with
        ⟨after, -, served, turns⟩ | ⟨served, turns⟩
      · rw [turns, List.getLast?_cons] at last
        rw [served]
        rcases others with _ | ⟨next, others⟩
        · cases last
          rfl
        · apply ih
          rw [Shell.turns] at last ⊢
          exact last
      · rw [turns] at last
        cases last
        exact served

end Shell

end ChunkTree
