import ChunkTree.InputFile
import ChunkTree.Proofs.Sections

/-!
# Readers that share an open file

The sections over an open file share its position, what was read ahead and its flags, and every read
leaves them otherwise than it found them.  A read takes the flags down and moves to its own place, and
what it gets from there on depends on the file alone (`InputFile.seek_clear`, `InputFile.fst_read`).  So
a section over an open file reads as one that keeps nothing (`InputFile.run_readAt_ofInput`): in any
order of reads and changes, each read answers by what is in the file at that moment
(`InputFile.outcomes_of_events`).
-/

namespace ChunkTree

namespace Section

/-- How long the last of a chain of slices is, where the first section has some size. -/
def lengthOf (size : Nat) (ranges : List (Nat × Nat)) : Nat :=
  ranges.foldl (fun _ range => range.2 - range.1) size

theorem size_of_cut_eq_ok {σ : Type} {part view : Section σ} {ranges : List (Nat × Nat)}
    (sliced : part.cut ranges = .ok view) : view.size = lengthOf part.size ranges := by
  induction ranges generalizing part with
  | nil =>
      cases sliced
      rfl
  | cons range rest ih =>
      obtain ⟨next, first, sliced⟩ := cut_cons_eq_ok_iff.mp sliced
      obtain ⟨-, rfl⟩ := slice_eq_ok_iff.mp first
      exact ih sliced

end Section

namespace InputFile

/-- The same file is open, wherever it is read and whatever reads have left. -/
structure Stays (file later : InputFile) : Prop where
  path_eq : later.path = file.path
  number_eq : later.number = file.number

theorem Stays.refl (file : InputFile) : Stays file file := ⟨rfl, rfl⟩

theorem Stays.trans {file later last : InputFile} (first : Stays file later)
    (second : Stays later last) : Stays file last :=
  ⟨second.path_eq.trans first.path_eq, second.number_eq.trans first.number_eq⟩

variable (file : InputFile) (files : FileSystem)

/-- With the flags down and the place found, nothing is left of what was before. -/
theorem seek_clear (position : Nat) :
    file.clear.seek position = ⟨file.path, file.number, position, #[], false, false⟩ := rfl

theorem stays_take (count : Nat) : Stays file (file.take files count).2 := by
  unfold take
  simp only
  split
  · exact ⟨rfl, rfl⟩
  · exact ⟨rfl, rfl⟩

theorem stays_read (count : Nat) : Stays file (file.read files count).2 := by
  have taken := stays_take file files count
  unfold read
  split
  · exact ⟨rfl, rfl⟩
  · rcases ran : file.take files count with ⟨bytes, later⟩
    rw [ran] at taken
    obtain ⟨path, number⟩ : Stays file later := taken
    simp only
    split
    · exact ⟨path, number⟩
    · exact ⟨path, number⟩

variable {file}

/-- Where nothing was read ahead, what is taken is what is in the file. -/
theorem fst_take (empty : file.ahead = #[]) (count : Nat) :
    (file.take files count).1 = (files.content file.number).slice file.position count := by
  have kept : file.ahead.extract 0 count = #[] := by
    rw [empty]
    exact Array.extract_empty
  unfold take
  simp only [kept, Array.size_empty, Nat.sub_zero, Array.empty_append]
  by_cases none : count = 0
  · rw [if_pos none, none, Bytes.slice_zero]
  · have enough : count ≤ if space < count then count else space := by
      split
      · exact Nat.le_refl _
      · omega
    have inside : 0 + count ≤ if space < count then count else space :=
      (Nat.zero_add count).le.trans enough
    have block : ((files.content file.number).slice file.position
        (if space < count then count else space)).slice 0 count =
          (files.content file.number).slice file.position count := Bytes.slice_slice _ inside
    rw [Bytes.slice, Nat.zero_add] at block
    rw [if_neg none]
    exact block

/-- A read with the flags down, and nothing read ahead, gets what is in the file. -/
theorem fst_read (empty : file.ahead = #[]) (ended : file.ended = false) (failed : file.failed = false)
    (count : Nat) :
    (file.read files count).1 = (files.content file.number).slice file.position count := by
  have flags : ¬ (file.ended ∨ file.failed) := by simp [ended, failed]
  rw [← fst_take files empty]
  unfold read
  rw [if_neg flags]
  rcases file.take files count with ⟨bytes, later⟩
  simp only
  split
  · rfl
  · rfl

variable (file)

/-- An open file gives what a file gives that nobody has read before. -/
theorem run_ofInput (start : Nat) {count : Nat} (some : 0 < count) : ∃ later, Stays file later ∧
    (Source.ofInput start count).run (files, file) =
      (((Source.ofFile file.path file.number start count).run files).1, files, later) := by
  obtain ⟨fresh, fresh_eq⟩ : ∃ fresh, file.clear.seek start = fresh := ⟨_, rfl⟩
  have named : Stays file fresh := by
    rw [← fresh_eq, seek_clear]
    exact ⟨rfl, rfl⟩
  have bytes : (fresh.read files count).1 = (files.content file.number).slice start count := by
    rw [← fresh_eq, seek_clear]
    exact fst_read files rfl rfl rfl count
  have stays := named.trans (stays_read fresh files count)
  have ran : (Source.ofInput start count).run (files, file) =
      if (fresh.read files count).1.size = count then
        (.ok (fresh.read files count).1, files, (fresh.read files count).2)
      else
        (.error (.shortRead (fresh.read files count).2.path), files, (fresh.read files count).2) := by
    rw [← fresh_eq]
    rfl
  have whole : ((files.content file.number).slice start count).size = count ↔
      ¬ (files.content file.number).size < start + count := by
    rw [Bytes.size_slice]
    omega
  refine ⟨(fresh.read files count).2, stays, ?_⟩
  rw [ran, bytes, stays.path_eq, Source.ofFile, Action.run_bind, Action.run_state]
  simp only [whole]
  by_cases short : (files.content file.number).size < start + count
  · rw [if_neg (not_not_intro short), if_pos short, Action.run_throw]
  · rw [if_pos short, if_neg short, Action.run_pure]

/-- What is read from a section that starts somewhere in a file, by what is in the file now. -/
def reading (path : String) (content : Bytes) (start size position count : Nat) : Except Fault Bytes :=
  if size < position + count then .error (.readOutside count position size)
  else if count = 0 then .ok #[]
  else if content.size < start + position + count then .error (.shortRead path)
  else .ok (content.slice (start + position) count)

/-- Whatever reads have left of an open file, a read answers by what is in the file. -/
theorem run_readAt_ofInput {view : Section (FileSystem × InputFile)}
    (based : view.source = Source.ofInput) (position count : Nat) : ∃ later, Stays file later ∧
      (view.readAt position count).run (files, file) =
        (reading file.path (files.content file.number) view.start view.size position count, files,
          later) := by
  unfold Section.readAt reading
  by_cases outside : view.size < position + count
  · refine ⟨file, .refl file, ?_⟩
    rw [if_pos (by omega), if_pos outside, Action.run_throw]
  rw [if_neg (by omega), if_neg outside]
  by_cases empty : count = 0
  · refine ⟨file, .refl file, ?_⟩
    rw [if_pos empty, if_pos empty, Action.run_pure]
  rw [if_neg empty, if_neg empty, based]
  obtain ⟨later, stays, ran⟩ :=
    run_ofInput file files (view.start + position) (Nat.pos_of_ne_zero empty)
  refine ⟨later, stays, ?_⟩
  rw [ran, Source.ofFile, Action.run_bind, Action.run_state]
  simp only
  split
  · rfl
  · rfl

/-- Something that happens around an open file. -/
inductive Event where
  | read (view : Section (FileSystem × InputFile)) (position count : Nat)
  /-- The files are no longer as they were: the file was written in place, or something else was done. -/
  | change (later : FileSystem → FileSystem)

namespace Event

/-- Lets an event happen, and answers with the outcome of a read. -/
def occur : Event → Action (FileSystem × InputFile) (Option (Except Fault Bytes))
  | .read view position count => do return some (← (view.readAt position count).attempt)
  | .change later => do
    .update fun state => (later state.1, state.2)
    return none

/-- The outcomes of reads by what is in the file whenever there is a read, and by nothing else. -/
def outcomes (path : String) (number : Nat) :
    FileSystem → List Event → List (Option (Except Fault Bytes))
  | _, [] => []
  | files, .read view position count :: rest =>
    some (reading path (files.content number) view.start view.size position count) ::
      outcomes path number files rest
  | files, .change later :: rest => none :: outcomes path number (later files) rest

/-- Every read is one of a section over the open file. -/
def Over (events : List Event) : Prop :=
  ∀ view position count, Event.read view position count ∈ events → view.source = Source.ofInput

variable {events : List Event}

/-- What comes before the answers of a run comes before them in the answer. -/
theorem run_cons_of_run {σ α : Type} {action : Action σ (List α)} {state : σ} {answers : List α}
    (ran : (action.run state).1 = .ok answers) (first : α) :
    (((do return first :: (← action)) : Action σ (List α)).run state).1 = .ok (first :: answers) := by
  rw [Action.run_bind]
  rcases outcome : action.run state with ⟨fault | rest, after⟩
  · rw [outcome] at ran
    cases ran
  · rw [outcome] at ran
    cases ran
    rfl

/-- Each read of a run finds the file open and answers by what is in it. -/
theorem run_mapM_occur (based : Over events) (file : InputFile) (files : FileSystem) :
    ((events.mapM occur).run (files, file)).1 =
      .ok (outcomes file.path file.number files events) := by
  induction events generalizing file files with
  | nil => rfl
  | cons event rest ih =>
      have later : Over rest := fun view position count member =>
        based view position count (List.mem_cons_of_mem _ member)
      rw [List.mapM_cons]
      cases event with
      | read view position count =>
          obtain ⟨after, stays, ran⟩ := run_readAt_ofInput file files
            (based view position count List.mem_cons_self) position count
          have here : (occur (.read view position count)).run (files, file) =
              (.ok (some (reading file.path (files.content file.number) view.start view.size position
                count)), files, after) := by
            rw [occur, Action.run_bind, Action.run_attempt, ran]
            rfl
          have behind := ih later after files
          rw [stays.path_eq, stays.number_eq] at behind
          rw [Action.run_bind, here, outcomes]
          exact run_cons_of_run behind _
      | change change =>
          have here : (occur (.change change)).run (files, file) = (.ok none, change files, file) := rfl
          rw [Action.run_bind, here, outcomes]
          exact run_cons_of_run (ih later file (change files)) _

end Event

/-- A file that opens is read from its start on, by a section over all of it. -/
theorem of_run_ofInput {path : String} {files after : FileSystem} {file : InputFile}
    {part : Section (FileSystem × InputFile)}
    (ran : (Section.ofInput path).run files = (.ok (file, part), after)) :
    after = files ∧ ∃ names number, files.locate path = .ok (.file names number) ∧
      file = opened path number ∧
      part = .whole Source.ofInput (files.content number).size := by
  rw [Section.ofInput, Action.run_bind, Action.run_state] at ran
  rcases led : files.locate path with reason | (names | ⟨names, number⟩ | names)
  · simp only [led] at ran
    cases ran
  · simp only [led] at ran
    cases ran
  · simp only [led] at ran
    cases ran
    exact ⟨rfl, names, number, rfl, rfl, rfl⟩
  · simp only [led] at ran
    cases ran

/-- **Nothing of a read shows in another.** A section over an open file, and a slice of it, have the
sizes that the file had when it was opened.  Whatever has been left of the open file since, in any run
of reads through these sections and of changes to the files, a read that is longer than nothing and
stays inside its section gives the bytes that are in the file at that moment, or fails if the file no
longer reaches as far. -/
theorem outcomes_of_events {path : String} {files after : FileSystem} {file : InputFile}
    {part : Section (FileSystem × InputFile)}
    (ran : (Section.ofInput path).run files = (.ok (file, part), after)) :
    after = files ∧ ∃ names number, files.locate path = .ok (.file names number) ∧
      part.size = (files.content number).size ∧
      (∀ ranges view, part.cut ranges = .ok view →
        view.start = Section.offset ranges ∧ view.size = Section.lengthOf part.size ranges ∧
          view.start + view.size ≤ part.size) ∧
      ∀ (now : FileSystem) (left : InputFile), Stays file left → ∀ events : List Event,
        (∀ view position count, Event.read view position count ∈ events →
          ∃ ranges, part.cut ranges = .ok view) →
        ((events.mapM Event.occur).run (now, left)).1 =
          .ok (Event.outcomes path number now events) := by
  obtain ⟨same, names, number, led, rfl, rfl⟩ := of_run_ofInput ran
  refine ⟨same, names, number, led, rfl, ?_, ?_⟩
  · intro ranges view sliced
    obtain ⟨moved, inside⟩ := Section.eq_of_cut_eq_ok sliced
    have start : view.start = 0 + Section.offset ranges := congrArg Section.start moved
    rw [Nat.zero_add] at start
    exact ⟨start, Section.size_of_cut_eq_ok sliced, start ▸ inside⟩
  · intro now left stays events family
    have based : Event.Over events := by
      intro view position count member
      obtain ⟨ranges, sliced⟩ := family view position count member
      exact congrArg Section.source (Section.eq_of_cut_eq_ok sliced).1
    rw [Event.run_mapM_occur based, stays.path_eq, stays.number_eq]
    rfl

/-- One file of five bytes. -/
def fiveBytes : FileSystem := FileSystem.empty.adopt ["f"] #[1, 2, 3, 4, 5]

theorem locate_fiveBytes : fiveBytes.locate "f" = .ok (.file ["f"] 0) := by decide +kernel

theorem content_fiveBytes : fiveBytes.content 0 = #[1, 2, 3, 4, 5] := by decide +kernel

theorem run_ofInput_fiveBytes : (Section.ofInput "f").run fiveBytes =
    (.ok (opened "f" 0, .whole Source.ofInput 5), fiveBytes) := by
  rw [Section.ofInput, Action.run_bind, Action.run_state]
  simp only [locate_fiveBytes, content_fiveBytes]
  rfl

/-- A file is cut down while it is open, and then grows: a slice cannot be read and then can again. -/
theorem outcomes_of_events_of_grown_file :
    ∃ file part view, (Section.ofInput "f").run fiveBytes = (.ok (file, part), fiveBytes) ∧
      part.slice 1 4 = .ok view ∧
      (([.read part 0 5, .change (·.setContent 0 #[9]), .read view 1 2, .read part 0 1, .read view 3 0,
          .change (·.setContent 0 #[9, 8, 7, 6]), .read view 1 2].mapM Event.occur).run
        (fiveBytes, file)).1 =
        .ok [some (.ok #[1, 2, 3, 4, 5]), none, some (.error (.shortRead "f")), some (.ok #[9]),
          some (.ok #[]), none, some (.ok #[7, 6])] := by
  obtain ⟨-, names, number, found, -, -, answers⟩ := outcomes_of_events run_ofInput_fiveBytes
  cases locate_fiveBytes.symm.trans found
  have sliced : (Section.whole Source.ofInput 5).slice 1 4 = .ok ⟨Source.ofInput, 1, 3⟩ := rfl
  refine ⟨_, _, _, run_ofInput_fiveBytes, sliced, ?_⟩
  rw [answers fiveBytes _ (.refl _)]
  · simp only [Event.outcomes, FileSystem.content_setContent, content_fiveBytes]
    decide
  · intro view position count member
    have among : view = .whole Source.ofInput 5 ∨ view = ⟨Source.ofInput, 1, 3⟩ := by
      simp only [List.mem_cons, Event.read.injEq, reduceCtorEq, List.not_mem_nil, or_false,
        false_or] at member
      rcases member with ⟨same, -⟩ | ⟨same, -⟩ | ⟨same, -⟩ | ⟨same, -⟩ | ⟨same, -⟩
      · exact .inl same
      · exact .inr same
      · exact .inl same
      · exact .inr same
      · exact .inr same
    rcases among with rfl | rfl
    · exact ⟨[], rfl⟩
    · exact ⟨[(1, 4)], rfl⟩

/-- Behind the end of a section even reading nothing fails, as every read does there. -/
theorem not_readAt_nothing_anywhere :
    ∃ file part, (Section.ofInput "f").run fiveBytes = (.ok (file, part), fiveBytes) ∧
      ((part.readAt 6 0).run (fiveBytes, file)).1 = .error (.readOutside 0 6 5) :=
  ⟨_, _, run_ofInput_fiveBytes, rfl⟩

end InputFile

end ChunkTree
