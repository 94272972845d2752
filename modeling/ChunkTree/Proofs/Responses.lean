import ChunkTree.Proofs.Explanations
import ChunkTree.Proofs.Turns

/-!
# Responses to lines

What a line does, and what is printed for it, does not depend on what was printed before
(`Shell.appends_obey`): printing only adds to the output, and nothing reads it.  Over stores that explain
themselves a line always ends without a fault, because each command prints what went wrong
(`Shell.avoids_obey`).  So a line has a response in every state (`Shell.run_obey`), and the response is
all that taking the line prints before the next prompt (`Shell.run_take_of_not_quits`).
-/

namespace ChunkTree

variable {σ α β : Type}

namespace Action

/-- Whatever the output is, the action does the same, and adds the same to the output. -/
def Appends (action : Action (σ × Bytes) α) : Prop :=
  ∀ state, ∃ outcome after said, ∀ output,
    action.run (state, output) = (outcome, (after, output ++ said))

theorem Appends.lift (outcome : Except Fault α) :
    (Action.lift outcome : Action (σ × Bytes) α).Appends :=
  fun state => ⟨outcome, state, #[], fun output => by rw [Array.append_empty]; rfl⟩

theorem Appends.pure (answer : α) : (Pure.pure answer : Action (σ × Bytes) α).Appends :=
  .lift (.ok answer)

theorem Appends.bind {action : Action (σ × Bytes) α} {next : α → Action (σ × Bytes) β}
    (first : action.Appends) (second : ∀ answer, (next answer).Appends) :
    (action >>= next).Appends := by
  intro state
  obtain ⟨outcome, between, said, ran⟩ := first state
  rcases outcome with fault | answer
  · refine ⟨.error fault, between, said, fun output => ?_⟩
    rw [run_bind, ran]
  · obtain ⟨last, after, told, goes⟩ := second answer between
    refine ⟨last, after, said ++ told, fun output => ?_⟩
    rw [run_bind, ran]
    simp only
    rw [goes, Array.append_assoc]

/-- Over one store, programs are the same action, and append if the store does. -/
theorem Appends.compatible :
    Compatible fun _ (action other : Action (σ × Bytes) _) => action = other ∧ Appends action :=
  .of_closed Appends.lift Appends.bind

theorem Appends.attempt {action : Action (σ × Bytes) α} (appends : action.Appends) :
    action.attempt.Appends := by
  intro state
  obtain ⟨outcome, after, said, ran⟩ := appends state
  exact ⟨.ok outcome, after, said, fun output => by rw [run_attempt, ran]⟩

/-- What has nothing to do with the output appends nothing. -/
theorem Appends.within_fst (action : Action σ α) :
    (action.within .fst : Action (σ × Bytes) α).Appends := by
  intro state
  exact ⟨(action.run state).1, (action.run state).2, #[], fun output => by
    rw [Array.append_empty]; rfl⟩

theorem Appends.update (change : σ → σ) :
    (Action.update fun pair : σ × Bytes => (change pair.1, pair.2)).Appends :=
  fun state => ⟨.ok (), change state, #[], fun output => by rw [Array.append_empty]; rfl⟩

theorem Appends.write (bytes : Bytes) :
    (Action.update fun pair : σ × Bytes => (pair.1, pair.2 ++ bytes)).Appends :=
  fun state => ⟨.ok (), state, bytes, fun _ => rfl⟩

/-- A look at the state without the output does not tell outputs apart. -/
theorem Appends.state {next : σ → Action (σ × Bytes) α} (each : ∀ state, (next state).Appends) :
    (Action.state >>= fun pair : σ × Bytes => next pair.1).Appends :=
  fun state => each state state

end Action

/-- Content is written to the output as it comes, and nothing else is. -/
theorem Archive.appends_readToAllowed {archive : Archive (σ × Bytes)}
    (gets : ∀ key, (archive.store.get key).Appends) {sink : Sink (σ × Bytes)}
    (takes : ∀ bytes, (sink bytes).Appends) (allowance : Allowance) (root : Key) :
    (archive.readToAllowed allowance root sink).Appends := by
  have related : archive.readToAllowed allowance root sink =
        archive.readToAllowed allowance root sink ∧
      (archive.readToAllowed allowance root sink).Appends :=
    relates_readToAllowed Action.Appends.compatible rfl (fun key => ⟨rfl, gets key⟩)
      (fun bytes => ⟨rfl, takes bytes⟩) allowance root
  exact related.2

namespace Shell

theorem appends_print (text : String) : (print text : Action (σ × Bytes) Unit).Appends :=
  .write (Bytes.ofText text)

theorem appends_report (label : String) (fault : Fault) :
    (report label fault : Action (σ × Bytes) Unit).Appends := by
  rw [report]
  by_cases foreign : fault = .foreign
  · rw [if_pos foreign]
    exact .lift _
  · rw [if_neg foreign]
    exact appends_print _

theorem appends_reportRead (fault : Fault) :
    (reportRead fault : Action (σ × Bytes) Unit).Appends := by
  unfold reportRead
  split
  · exact appends_print _
  · exact appends_report _ _

/-- A fault with a message is reported, and that is the end of it. -/
theorem avoids_report (label : String) {fault : Fault} (explained : fault ≠ .foreign)
    (other : Fault) : (report label fault : Action (σ × Bytes) Unit).Avoids other := by
  rw [report, if_neg explained]
  exact .update _

theorem avoids_reportRead {fault : Fault} (explained : fault ≠ .foreign) (other : Fault) :
    (reportRead fault : Action (σ × Bytes) Unit).Avoids other := by
  unfold reportRead
  split
  · exact .update _
  · exact avoids_report _ explained other

/-- The part of a command that can fail is attempted: what comes next only has to deal with faults that
there can be. -/
theorem avoids_attempt_bind {work : Action (σ × Bytes) α}
    {next : Except Fault α → Action (σ × Bytes) Unit} {other : Fault} (explained : work.Avoids .foreign)
    (succeeds : ∀ answer, (next (.ok answer)).Avoids other)
    (fails : ∀ fault, fault ≠ .foreign → (next (.error fault)).Avoids other) :
    (work.attempt >>= next).Avoids other := by
  refine Action.Avoids.bind_of_ok (.attempt work) fun before outcome after attempted => ?_
  rcases outcome with fault | answer
  · apply fails
    rintro rfl
    exact explained before (Except.ok.inj (Prod.mk.inj attempted).1)
  · exact succeeds answer

variable (shell : Shell σ)

/-- The stores of the shell explain themselves. -/
structure Explains : Prop where
  archive : shell.archive.store.Explains
  asks : ∀ key, (shell.store.get key).Avoids .foreign

/-- Writes the content under a root key to a file, given the state from which the file is opened. -/
def readFileFrom (root : Key) (path : String) (state : σ) : Action (σ × Bytes) Unit :=
  match (shell.files.view state).create path with
  | .error _ => print ("Error reading content: cannot open " ++ path ++ "\n")
  | .ok (number, files) => do
    .update fun (state, output) => (shell.files.update files state, output)
    match ← (shell.fill root (.opened number (shell.room state))).within .fst with
    | .ok count => print ("Wrote " ++ toString count ++ " bytes to " ++ path ++ "\n")
    | .error fault => reportRead fault

theorem readFile_eq (root : Key) (path : String) :
    shell.readFile root path = Action.state >>= fun pair => shell.readFileFrom root path pair.1 :=
  rfl

section Commands

variable {shell} (explains : shell.Explains) (other : Fault)

theorem appends_storeFile (path : String) : (shell.storeFile path).Appends := by
  refine Action.Appends.bind (.attempt (.within_fst _)) fun outcome => ?_
  rcases outcome with fault | root
  · exact appends_report _ _
  · exact appends_print _

theorem appends_readOut (root : Key) : (shell.readOut root).Appends := by
  refine Action.Appends.bind (.attempt ?_) fun outcome => ?_
  · exact Archive.appends_readToAllowed (fun key => .within_fst _)
      (fun bytes => (Action.Appends.write bytes).bind fun _ => .pure true) _ _
  · rcases outcome with fault | count
    · exact appends_reportRead _
    · exact appends_print _

theorem appends_readFile (root : Key) (path : String) : (shell.readFile root path).Appends := by
  rw [readFile_eq]
  refine Action.Appends.state fun state => ?_
  rw [readFileFrom]
  rcases (shell.files.view state).create path with reason | ⟨number, files⟩
  · exact appends_print _
  · refine (Action.Appends.update (shell.files.update files)).bind fun _ => ?_
    refine (Action.Appends.within_fst _).bind fun outcome => ?_
    rcases outcome with fault | count
    · exact appends_reportRead _
    · exact appends_print _

theorem appends_has (hex : String) : (shell.has hex).Appends := by
  refine Action.Appends.bind (.attempt (.within_fst _)) fun outcome => ?_
  rcases outcome with fault | _ | _
  · exact appends_report _ _
  · exact appends_print _
  · exact appends_print _

theorem appends_size (hex : String) : (shell.size hex).Appends := by
  refine Action.Appends.bind (.attempt (.within_fst _)) fun outcome => ?_
  rcases outcome with fault | size
  · exact appends_report _ _
  · exact appends_print _

include explains

theorem avoids_storeFile (path : String) : (shell.storeFile path).Avoids other := by
  refine avoids_attempt_bind (.within ?_ _) (fun root => .update _) fun fault explained =>
    avoids_report _ explained other
  obtain ⟨opens, reads⟩ := Section.avoids_ofFile path
  refine Action.Avoids.bind_of_ok (opens.within _) fun before part after opened => ?_
  rw [Action.run_within] at opened
  have ran : (Section.ofFile path).run (shell.files.view before) =
      (.ok part, ((Section.ofFile path).run (shell.files.view before)).2) :=
    Prod.ext (Prod.mk.inj opened).1 rfl
  exact Archive.avoids_keepAllowed explains.archive
    (fun start count => (reads _ _ _ ran start count).within _) shell.allowance

theorem avoids_readOut (root : Key) : (shell.readOut root).Avoids other := by
  refine avoids_attempt_bind ?_ (fun count => .update _) fun fault explained =>
    avoids_reportRead explained other
  exact Archive.avoids_readToAllowed (explains.archive.within _).get root
    (fun bytes => (Action.Avoids.update _).bind fun _ => .pure true) shell.allowance

/-- Filling a file never fails; it answers with the outcome of the read, which is explained. -/
theorem fill_ne_foreign (root : Key) (file : OutputFile) {before : σ} {outcome : Except Fault Nat}
    (filled : ((shell.fill root file).run before).1 = .ok outcome) : outcome ≠ .error .foreign := by
  rintro rfl
  exact Archive.avoids_readToAllowed (explains.archive.within _).get root
    (fun _ _ never => by cases never) shell.allowance (before, file) (Except.ok.inj filled)

theorem avoids_readFile (root : Key) (path : String) : (shell.readFile root path).Avoids other := by
  rw [readFile_eq]
  refine Action.Avoids.bind (fun _ => nofun) fun before => ?_
  rw [readFileFrom]
  rcases (shell.files.view before.1).create path with reason | ⟨number, files⟩
  · exact .update _
  refine (Action.Avoids.update _).bind fun _ => ?_
  have never : (shell.fill root (.opened number (shell.room before.1))).Avoids other := fun _ => nofun
  refine Action.Avoids.bind_of_ok (never.within _) fun start outcome after filled => ?_
  rw [Action.run_within] at filled
  have explained := fill_ne_foreign explains root _ (Prod.mk.inj filled).1
  rcases outcome with fault | count
  · refine avoids_reportRead ?_ other
    rintro rfl
    exact explained rfl
  · exact .update _

theorem avoids_has (hex : String) : (shell.has hex).Avoids other := by
  refine avoids_attempt_bind (.within ?_ _) ?_ fun fault explained =>
    avoids_report _ explained other
  · refine (Action.Avoids.lift (Key.ofHex_ne_foreign hex)).bind fun key => ?_
    exact (explains.asks key).bind fun _ => .pure _
  · intro present
    cases present with
    | true => exact .update _
    | false => exact .update _

theorem avoids_size (hex : String) : (shell.size hex).Avoids other := by
  refine avoids_attempt_bind (.within ?_ _) (fun size => .update _) fun fault explained =>
    avoids_report _ explained other
  refine (Action.Avoids.lift (Key.ofHex_ne_foreign hex)).bind fun key => ?_
  exact (Archive.avoids_openAt explains.archive.get key).bind fun _ => .pure _

end Commands

/-- No line looks at what was printed. -/
theorem appends_obey (line : List String) : (shell.obey line).Appends :=
  shell.obey_induction (.pure ()) appends_print (fun path _ _ => appends_storeFile path)
    (fun fault _ => appends_reportRead fault) appends_readOut
    (fun _ root path _ _ _ => appends_readFile root path) appends_has appends_size

variable {shell} in
/-- No line ends with a fault. -/
theorem avoids_obey (explains : shell.Explains) (line : List String) (other : Fault) :
    (shell.obey line).Avoids other :=
  shell.obey_induction (.pure ()) (fun _ => .update _) (fun path _ _ => avoids_storeFile explains other path)
    (fun _ explained => avoids_reportRead explained other) (avoids_readOut explains other)
    (fun _ root path _ _ _ => avoids_readFile explains other root path) (avoids_has explains other)
    (avoids_size explains other)

/-- What carrying out a line leaves, and what it prints. -/
def response (line : List String) (state : σ) : σ × Bytes := ((shell.obey line).run (state, #[])).2

/-- What a line that is taken leaves, with the output before and after: the response is printed, and
then the shell asks for the next line. -/
def step (before : σ × Bytes) (line : List Char) : σ × Bytes :=
  (shell.idle (shell.response (words line) before.1).1,
    before.2 ++ (shell.response (words line) before.1).2 ++ Bytes.ofText prompt)

variable {shell} (explains : shell.Explains)
include explains

/-- A line ends without a fault, and its response is printed behind what was printed before. -/
theorem run_obey (line : List String) (state : σ) (output : Bytes) :
    (shell.obey line).run (state, output) =
      (.ok (), ((shell.response line state).1, output ++ (shell.response line state).2)) := by
  obtain ⟨outcome, after, said, ran⟩ := shell.appends_obey line state
  have alone : shell.response line state = (after, said) := by
    rw [response, ran, Array.empty_append]
  rw [ran, alone]
  rcases outcome with fault | _
  · exact absurd (congrArg Prod.fst (ran output)) (avoids_obey explains line fault _)
  · rfl

theorem run_take_of_not_quits {line : List Char} (goes : (words line).head? ≠ some "quit")
    (before : σ × Bytes) :
    (shell.take line).run before = (.ok true, shell.step before line) := by
  obtain ⟨state, output⟩ := before
  rw [run_take, if_neg goes, run_obey explains]
  rfl

end Shell

/-- The shell over memory and disk explains itself. -/
theorem Program.shell_explains (chunker : Chunker) (base : String) :
    (shell chunker base).Explains where
  archive := store_explains base
  asks := (store_explains base).get

end ChunkTree
