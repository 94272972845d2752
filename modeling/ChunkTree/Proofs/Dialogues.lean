import ChunkTree.Proofs.Responses

/-!
# Dialogues

A shell is a fold over its lines: it takes those before the first that quits, one after the other, and
leaves what follows that line (`Shell.run_eq_foldl`).  A text of whole lines cuts into lines apart from
what follows it (`Shell.lines_append`), so two texts in one run do what they do in two, with one prompt
less (`Program.shell_converses`).
-/

namespace ChunkTree

variable {σ : Type}

namespace Shell

/-- The first word of the line is `quit`. -/
def Quits (line : List Char) : Prop := (words line).head? = some "quit"

instance : DecidablePred Quits :=
  fun line => inferInstanceAs (Decidable ((words line).head? = some "quit"))

/-- The text is empty or ends with a line break. -/
def Whole (text : List Char) : Prop := text = [] ∨ text.getLast? = some '\n'

/-- No line of the text ends the shell. -/
def GoesOn (text : List Char) : Prop := ∀ pair ∈ lines text, ¬ Quits pair.1

/-- The lines of a text before the first that quits. -/
def heard (text : List Char) : List (List Char) :=
  ((lines text).map Prod.fst).takeWhile fun line => ¬ Quits line

/-- What follows the first line of a text that quits. -/
def unheard (text : List Char) : List Char :=
  ((lines text).find? fun pair => Quits pair.1).elim [] Prod.snd

section Lines

theorem linesFrom_append {first : List Char} (ended : first.getLast? = some '\n')
    (second current : List Char) :
    linesFrom current (first ++ second) =
      (linesFrom current first).map (fun pair => (pair.1, pair.2 ++ second)) ++ lines second := by
  induction first generalizing current with
  | nil => cases ended
  | cons c rest ih =>
      rw [List.cons_append, linesFrom, linesFrom]
      rcases rest with _ | ⟨next, others⟩
      · obtain rfl : c = '\n' := Option.some.inj ended
        rfl
      rw [List.getLast?_cons_cons] at ended
      by_cases newline : c = '\n'
      · rw [if_pos newline, if_pos newline, ih ended]
        rfl
      · rw [if_neg newline, if_neg newline]
        exact ih ended _

/-- Whole lines are cut apart from what follows them. -/
theorem lines_append {first : List Char} (whole : Whole first) (second : List Char) :
    lines (first ++ second) =
      (lines first).map (fun pair => (pair.1, pair.2 ++ second)) ++ lines second := by
  rcases whole with rfl | ended
  · rfl
  · exact linesFrom_append ended second []

theorem linesFrom_line {line : List Char} (inside : '\n' ∉ line) (rest current : List Char) :
    linesFrom current (line ++ '\n' :: rest) = (current.reverse ++ line, rest) :: lines rest := by
  induction line generalizing current with
  | nil =>
      rw [List.append_nil]
      rfl
  | cons c others ih =>
      have other := List.ne_of_not_mem_cons inside
      rw [List.cons_append, linesFrom, if_neg (Ne.symm other),
        ih (List.not_mem_of_not_mem_cons inside), List.reverse_cons, List.append_assoc,
        List.singleton_append]

/-- A line ends at its line break. -/
theorem lines_line {line : List Char} (inside : '\n' ∉ line) (rest : List Char) :
    lines (line ++ '\n' :: rest) = (line, rest) :: lines rest :=
  linesFrom_line inside rest []

theorem linesFrom_last {line : List Char} (inside : '\n' ∉ line) (current : List Char) :
    linesFrom current line =
      if current.reverse ++ line = [] then [] else [(current.reverse ++ line, [])] := by
  induction line generalizing current with
  | nil => simp [linesFrom]
  | cons c others ih =>
      have other := List.ne_of_not_mem_cons inside
      rw [linesFrom, if_neg (Ne.symm other), ih (List.not_mem_of_not_mem_cons inside),
        List.reverse_cons, List.append_assoc, List.singleton_append]

/-- The last line may do without a line break, if there is something in it. -/
theorem lines_last {line : List Char} (inside : '\n' ∉ line) (some : line ≠ []) :
    lines line = [(line, [])] :=
  (linesFrom_last inside []).trans (if_neg some)

theorem Quits.ne_nil {line : List Char} (quits : Quits line) : line ≠ [] := by
  rintro rfl
  cases quits

section Heard

variable {first : List Char} (whole : Whole first) (goes : GoesOn first)
include goes

theorem find?_quits : (lines first).find? (fun pair => Quits pair.1) = none := by
  rw [List.find?_eq_none]
  intro pair member
  simpa using goes pair member

theorem unheard_eq_nil : unheard first = [] := by
  rw [unheard, find?_quits goes, Option.elim_none]

include whole

/-- All of a text that goes on is heard, and then what follows. -/
theorem heard_append (second : List Char) : heard (first ++ second) = heard first ++ heard second := by
  have all : ∀ line ∈ (lines first).map Prod.fst, decide (¬ Quits line) = true := by
    intro line member
    obtain ⟨pair, held, rfl⟩ := List.mem_map.mp member
    exact decide_eq_true (goes pair held)
  have same : (Prod.fst ∘ fun pair : List Char × List Char => (pair.1, pair.2 ++ second)) =
      Prod.fst := rfl
  rw [heard, lines_append whole, List.map_append, List.map_map, same,
    List.takeWhile_append_of_pos all, heard, List.takeWhile_eq_self_iff.mpr all, heard]

/-- Nothing but what follows can be left of a text that goes on. -/
theorem unheard_append (second : List Char) : unheard (first ++ second) = unheard second := by
  have same : ((fun pair : List Char × List Char => decide (Quits pair.1)) ∘
      fun pair : List Char × List Char => (pair.1, pair.2 ++ second)) =
    fun pair => decide (Quits pair.1) := rfl
  rw [unheard, lines_append whole, List.find?_append, List.find?_map, same, find?_quits goes,
    Option.map_none, Option.none_or, unheard]

end Heard

/-- Nothing is heard from a line that quits. -/
theorem heard_of_quits {line : List Char} (inside : '\n' ∉ line) (quits : Quits line)
    (rest : List Char) : heard (line ++ '\n' :: rest) = [] ∧ heard line = [] ∧
      unheard (line ++ '\n' :: rest) = rest ∧ unheard line = [] := by
  rw [heard, heard, unheard, unheard, lines_line inside, lines_last inside quits.ne_nil]
  simp [quits]

end Lines

variable {shell : Shell σ} (explains : shell.Explains)

/-- What lines do, and what is printed for them, does not depend on what was printed before. -/
theorem exists_foldl_step (lines : List (List Char)) (state : σ) :
    ∃ after said, ∀ output, lines.foldl shell.step (state, output) = (after, output ++ said) := by
  induction lines generalizing state with
  | nil => exact ⟨state, #[], fun output => by rw [Array.append_empty]; rfl⟩
  | cons line others ih =>
      obtain ⟨after, said, printed⟩ := ih (shell.step (state, #[]) line).1
      refine ⟨after, (shell.response (words line) state).2 ++ Bytes.ofText prompt ++ said,
        fun output => ?_⟩
      rw [List.foldl_cons, ← Array.append_assoc, ← Array.append_assoc]
      exact printed _

include explains

theorem run_serve (lines : List (List Char × List Char)) (before : σ × Bytes) :
    (shell.serve lines).run before =
      (.ok ((lines.find? fun pair => Quits pair.1).elim [] Prod.snd),
        ((lines.map Prod.fst).takeWhile fun line => ¬ Quits line).foldl shell.step before) := by
  induction lines generalizing before with
  | nil => rfl
  | cons pair others ih =>
      obtain ⟨line, rest⟩ := pair
      rw [serve, Action.run_bind, List.map_cons]
      by_cases quits : Quits line
      · have quit : (words line).head? = some "quit" := quits
        rw [run_take, if_pos quit, List.find?_cons_of_pos (by simpa using quits),
          List.takeWhile_cons_of_neg (by simpa using quits)]
        rfl
      · rw [run_take_of_not_quits explains quits, List.find?_cons_of_neg (by simpa using quits),
          List.takeWhile_cons_of_pos (by simpa using quits), List.foldl_cons]
        exact ih _

/-- **The shell is a fold over the lines that it hears**, and ends without a fault. -/
theorem run_eq_foldl (text : List Char) (state : σ) (output : Bytes) :
    (shell.run text).run (state, output) =
      (.ok (unheard text),
        (heard text).foldl shell.step (state, output ++ Bytes.ofText prompt)) :=
  run_serve explains (lines text) _

omit explains

variable (shell) in
/-- How a shell deals with any text, from any state. -/
structure Converses : Prop where
  /-- Nothing is done but to take the lines before the first that quits, one after the other, and no
  line makes the shell fail. -/
  folds : ∀ text state output, (shell.run text).run (state, output) =
    (.ok (unheard text), (heard text).foldl shell.step (state, output ++ Bytes.ofText prompt))
  /-- A line that does not quit has a response, which is printed, and one prompt behind it; the shell
  goes on.  A blank line does nothing, and its response is empty. -/
  responds : ∀ line state, ¬ Quits line → ∃ after said,
    (∀ output, (shell.obey (words line)).run (state, output) = (.ok (), (after, output ++ said))) ∧
    (∀ output, (shell.take line).run (state, output) =
      (.ok true, (shell.idle after, output ++ said ++ Bytes.ofText prompt))) ∧
    (words line = [] → after = state ∧ said = #[])
  /-- Two texts in one run do what they do one after the other.  What they print is the same, but for
  the prompt before the second. -/
  composes : ∀ first second state, Whole first → GoesOn first → ∃ between said after told,
    (∀ output, (shell.run first).run (state, output) = (.ok [], (between, output ++ said))) ∧
    (∀ output, (shell.run second).run (between, output) =
      (.ok (unheard second), (after, output ++ Bytes.ofText prompt ++ told))) ∧
    ∀ output, (shell.run (first ++ second)).run (state, output) =
      (.ok (unheard second), (after, output ++ said ++ told))
  /-- A line that quits does nothing, and whatever follows it is left as it is. -/
  stops : ∀ first line rest state, Whole first → GoesOn first → '\n' ∉ line → Quits line →
    ∃ after said,
      (∀ output, (shell.run first).run (state, output) = (.ok [], (after, output ++ said))) ∧
      (∀ output, (shell.run (first ++ line)).run (state, output) =
        (.ok [], (after, output ++ said))) ∧
      ∀ output, (shell.run (first ++ (line ++ '\n' :: rest))).run (state, output) =
        (.ok rest, (after, output ++ said))

end Shell

open Shell in
/-- **The shell over memory and disk deals with any text as a fold over its lines.**  Whatever is in
memory, in the files and waiting to be written, and whatever the lines are, no line makes it fail, only a
line that quits or the end stops it, and a run on two texts is two runs. -/
theorem Program.shell_converses (chunker : Chunker) (base : String) :
    (shell chunker base).Converses where
  folds := run_eq_foldl (shell_explains chunker base)
  responds := by
    intro line state goes
    have explains := shell_explains chunker base
    refine ⟨_, _, run_obey explains (words line) state,
      fun output => run_take_of_not_quits explains goes (state, output), fun blank => ?_⟩
    rw [blank]
    exact ⟨rfl, rfl⟩
  composes := by
    intro first second state whole goes
    have folds := run_eq_foldl (shell_explains chunker base)
    obtain ⟨between, said, ran⟩ := exists_foldl_step (heard first) state
    obtain ⟨after, told, goesOn⟩ := exists_foldl_step (heard second) between
    refine ⟨between, Bytes.ofText prompt ++ said, after, told, fun output => ?_, fun output => ?_,
      fun output => ?_⟩
    · rw [folds, unheard_eq_nil goes, ran, Array.append_assoc]
    · rw [folds, goesOn]
    · rw [folds, unheard_append whole goes, heard_append whole goes, List.foldl_append, ran, goesOn,
        ← Array.append_assoc]
  stops := by
    intro first line rest state whole goes inside quits
    have folds := run_eq_foldl (shell_explains chunker base)
    obtain ⟨after, said, ran⟩ := exists_foldl_step (heard first) state
    obtain ⟨nothing, alone, left, none⟩ := heard_of_quits inside quits rest
    refine ⟨after, Bytes.ofText prompt ++ said, fun output => ?_, fun output => ?_,
      fun output => ?_⟩
    · rw [folds, unheard_eq_nil goes, ran, Array.append_assoc]
    · rw [folds, unheard_append whole goes, heard_append whole goes, alone, none, List.append_nil,
        ran, Array.append_assoc]
    · rw [folds, unheard_append whole goes, heard_append whole goes, nothing, left,
        List.append_nil, ran, Array.append_assoc]

open Shell in
/-- After a blank line and a key of one digit the shell still goes on, and `quit` leaves `help` as it is. -/
theorem Program.shell_converses_until_quit :
    Whole " \nhas 0\n".toList ∧ GoesOn " \nhas 0\n".toList ∧ Quits "quit".toList ∧
      ∃ after said,
        (∀ output, ((shell Chunker.tiny "store").run " \nhas 0\n".toList).run
          (((∅, FileSystem.empty), Backlog.empty), output) = (.ok [], (after, output ++ said))) ∧
        ∀ output, ((shell Chunker.tiny "store").run " \nhas 0\nquit\nhelp\n".toList).run
          (((∅, FileSystem.empty), Backlog.empty), output) =
            (.ok "help\n".toList, (after, output ++ said)) := by
  have whole : Whole " \nhas 0\n".toList := .inr (by decide)
  have goes : GoesOn " \nhas 0\n".toList := by
    unfold GoesOn
    decide
  have quits : Quits "quit".toList := by decide
  obtain ⟨after, said, alone, -, stops⟩ := (shell_converses Chunker.tiny "store").stops _ _
    "help\n".toList ((∅, FileSystem.empty), Backlog.empty) whole goes (by decide) quits
  exact ⟨whole, goes, quits, after, said, alone, stops⟩

end ChunkTree
