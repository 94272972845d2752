import Mathlib.Data.Nat.Digits.Lemmas
import Mathlib.Tactic.Ring
import ChunkTree.Options

/-!
# The grammar of arguments

The arguments of the program are a sequence of items: the switch for more output, or a flag and the word
behind it, if the flag admits the word.  Every option has the word of the last item for it
(`Options.Sets`).  Arguments that are no such sequence start with one, and what follows it offends
(`Options.Offends`).
-/

namespace ChunkTree

namespace Numeral

/-- The number that decimal digits spell. -/
def decimal (digits : List Char) : Nat := Nat.ofDigits 10 (digits.reverse.map fun c => c.toNat - 48)

/-- The digits at the start of a text, as long as there are any: there is at least one, and a word holds the
number that they spell. -/
structure AreDigits (digits rest : List Char) : Prop where
  nonempty : digits ≠ []
  inside : ∀ c ∈ digits, c.isDigit
  ended : ∀ c ∈ rest.head?, c.isDigit = false
  small : decimal digits < wordLimit

/-- The number that a sign and digits spell; a minus takes it from zero around the end of words. -/
def ofSign (sign digits : List Char) : Nat :=
  if sign = ['-'] then (wordLimit - decimal digits) % wordLimit else decimal digits

/-- The text starts with this number: behind blanks, and perhaps a sign, there are digits, and what follows
them does not matter. -/
def Denotes (text : String) (number : Nat) : Prop :=
  ∃ blanks sign digits rest : List Char,
    text.toList = blanks ++ (sign ++ (digits ++ rest)) ∧ (∀ c ∈ blanks, Shell.isBlank c) ∧
      sign ∈ [[], ['+'], ['-']] ∧ AreDigits digits rest ∧ ofSign sign digits = number

variable {sign digits rest text : List Char} {number : Nat}

/-- The digits go on from a value as far as they reach. -/
theorem digits_append (value : Nat) (inside : ∀ c ∈ digits, c.isDigit)
    (ended : ∀ c ∈ rest.head?, c.isDigit = false) :
    Numeral.digits value (digits ++ rest) = 10 ^ digits.length * value + decimal digits := by
  induction digits generalizing value with
  | nil =>
      cases rest with
      | nil => simp [Numeral.digits, decimal]
      | cons c rest =>
          have other : c.isDigit = false := ended c rfl
          simp [Numeral.digits, decimal, other]
  | cons c others ih =>
      obtain ⟨here, inside⟩ := List.forall_mem_cons.mp inside
      have head : decimal (c :: others) = decimal others + 10 ^ others.length * (c.toNat - 48) := by
        simp only [decimal, List.reverse_cons, List.map_append, List.map_cons, List.map_nil,
          Nat.ofDigits_append, List.length_map, List.length_reverse, Nat.ofDigits_singleton]
      rw [List.cons_append, Numeral.digits, if_pos here, ih _ inside, head, List.length_cons, pow_succ]
      ring

/-- The number that a text without a sign starts with. -/
def unsigned? : List Char → Option Nat
  | c :: rest =>
    if c.isDigit ∧ Numeral.digits 0 (c :: rest) < wordLimit then some (Numeral.digits 0 (c :: rest))
    else none
  | [] => none

theorem unsigned?_append (leads : AreDigits digits rest) :
    unsigned? (digits ++ rest) = some (decimal digits) := by
  have value := digits_append 0 leads.inside leads.ended
  rw [Nat.mul_zero, Nat.zero_add] at value
  obtain ⟨c, others, rfl⟩ := List.exists_cons_of_ne_nil leads.nonempty
  rw [List.cons_append] at value ⊢
  rw [unsigned?, value, if_pos ⟨leads.inside c List.mem_cons_self, leads.small⟩]

theorem exists_of_unsigned? (read : unsigned? text = some number) :
    ∃ digits rest, text = digits ++ rest ∧ AreDigits digits rest ∧ decimal digits = number := by
  have parts : text.takeWhile Char.isDigit ++ text.dropWhile Char.isDigit = text :=
    List.takeWhile_append_dropWhile
  have inside : ∀ c ∈ text.takeWhile Char.isDigit, c.isDigit :=
    List.all_eq_true.mp List.all_takeWhile
  have ended : ∀ c ∈ (text.dropWhile Char.isDigit).head?, c.isDigit = false := by
    intro c first
    have stopped := List.head?_dropWhile_not Char.isDigit text
    rw [Option.mem_def.mp first] at stopped
    exact stopped
  have value := digits_append 0 inside ended
  rw [parts, Nat.mul_zero, Nat.zero_add] at value
  cases text with
  | nil => cases read
  | cons c others =>
      rw [unsigned?, value] at read
      by_cases accepted : c.isDigit ∧ decimal ((c :: others).takeWhile Char.isDigit) < wordLimit
      · rw [if_pos accepted, Option.some.injEq] at read
        refine ⟨_, _, parts.symm, ⟨?_, inside, ended, accepted.2⟩, read⟩
        rw [List.takeWhile_cons_of_pos accepted.1]
        exact List.cons_ne_nil _ _
      · rw [if_neg accepted] at read
        cases read

theorem signed?_minus (rest : List Char) :
    signed? ('-' :: rest) =
      (unsigned? rest).map fun number => (wordLimit - number) % wordLimit := by
  cases rest with
  | nil => rfl
  | cons c rest => rfl

theorem signed?_plus (rest : List Char) : signed? ('+' :: rest) = unsigned? rest := by
  cases rest with
  | nil => rfl
  | cons c rest => rfl

theorem signed?_other (minus : ∀ rest, text ≠ '-' :: rest) (plus : ∀ rest, text ≠ '+' :: rest) :
    signed? text = unsigned? text := by
  unfold signed?
  split
  next rest => exact absurd rfl (minus rest)
  next rest => exact absurd rfl (plus rest)
  next =>
    cases text with
    | nil => rfl
    | cons c rest => rfl

theorem signed?_append (signed : sign ∈ [[], ['+'], ['-']]) (leads : AreDigits digits rest) :
    signed? (sign ++ (digits ++ rest)) = some (ofSign sign digits) := by
  have read := unsigned?_append leads
  simp only [List.mem_cons, List.not_mem_nil, or_false] at signed
  rcases signed with rfl | rfl | rfl
  · obtain ⟨c, others, rfl⟩ := List.exists_cons_of_ne_nil leads.nonempty
    have isDigit := leads.inside c List.mem_cons_self
    have apart (sign : Char) (other : sign.isDigit = false) (following : List Char) :
        c :: others ++ rest ≠ sign :: following := by
      intro same
      rw [← (List.cons.inj same).1, isDigit] at other
      cases other
    rw [List.nil_append, signed?_other (apart '-' rfl) (apart '+' rfl), read]
    rfl
  · rw [List.singleton_append, signed?_plus, read]
    rfl
  · rw [List.singleton_append, signed?_minus, read]
    rfl

theorem exists_of_signed? (read : signed? text = some number) :
    ∃ sign digits rest, text = sign ++ (digits ++ rest) ∧ sign ∈ [[], ['+'], ['-']] ∧
      AreDigits digits rest ∧ ofSign sign digits = number := by
  by_cases minus : ∃ rest, text = '-' :: rest
  · obtain ⟨rest, rfl⟩ := minus
    rw [signed?_minus, Option.map_eq_some_iff] at read
    obtain ⟨value, read, rfl⟩ := read
    obtain ⟨digits, rest, rfl, leads, rfl⟩ := exists_of_unsigned? read
    exact ⟨['-'], digits, rest, rfl, by simp, leads, rfl⟩
  · by_cases plus : ∃ rest, text = '+' :: rest
    · obtain ⟨rest, rfl⟩ := plus
      rw [signed?_plus] at read
      obtain ⟨digits, rest, rfl, leads, rfl⟩ := exists_of_unsigned? read
      exact ⟨['+'], digits, rest, rfl, by simp, leads, rfl⟩
    · rw [signed?_other (not_exists.mp minus) (not_exists.mp plus)] at read
      obtain ⟨digits, rest, rfl, leads, rfl⟩ := exists_of_unsigned? read
      exact ⟨[], digits, rest, rfl, by simp, leads, rfl⟩

theorem isBlank_of_isDigit {c : Char} (isDigit : c.isDigit) : Shell.isBlank c = false := by
  simp only [Shell.isBlank, decide_eq_false_iff_not]
  rintro (rfl | rfl | rfl | rfl | rfl | rfl) <;> cases isDigit

/-- A sign or digits end the blanks before them. -/
theorem dropWhile_isBlank_append (signed : sign ∈ [[], ['+'], ['-']])
    (leads : AreDigits digits rest) :
    (sign ++ (digits ++ rest)).dropWhile Shell.isBlank = sign ++ (digits ++ rest) := by
  simp only [List.mem_cons, List.not_mem_nil, or_false] at signed
  rcases signed with rfl | rfl | rfl
  · obtain ⟨c, others, rfl⟩ := List.exists_cons_of_ne_nil leads.nonempty
    have isDigit := leads.inside c List.mem_cons_self
    apply List.dropWhile_cons_of_neg
    rw [isBlank_of_isDigit isDigit]
    exact Bool.false_ne_true
  · exact List.dropWhile_cons_of_neg (by decide)
  · exact List.dropWhile_cons_of_neg (by decide)

/-- A number is read from a text exactly if the text starts with it. -/
theorem word?_eq_some_iff {text : String} : word? text = some number ↔ Denotes text number := by
  rw [word?]
  constructor
  · intro read
    obtain ⟨sign, digits, rest, body, signed, leads, value⟩ := exists_of_signed? read
    refine ⟨text.toList.takeWhile Shell.isBlank, sign, digits, rest, ?_,
      List.all_eq_true.mp List.all_takeWhile, signed, leads, value⟩
    rw [← body, List.takeWhile_append_dropWhile]
  · rintro ⟨blanks, sign, digits, rest, parts, blank, signed, leads, rfl⟩
    rw [parts, List.dropWhile_append_of_pos blank, dropWhile_isBlank_append signed leads,
      signed?_append signed leads]

example : word? "\t-1 or so" = some 18446744073709551615 := by decide

end Numeral

theorem isVerboseSwitch_iff {argument : String} :
    isVerboseSwitch argument = true ↔ argument ∈ ["-v", "--verbose"] := by
  simp [isVerboseSwitch]

theorem Severity.named_of_forall {word : String} (unknown : ∀ severity, Severity.name severity ≠ word) :
    named word = .error (.unknownSeverity word) := by
  unfold named
  split
  next => exact absurd rfl (unknown trace)
  next => exact absurd rfl (unknown debug)
  next => exact absurd rfl (unknown info)
  next => exact absurd rfl (unknown warning)
  next => exact absurd rfl (unknown error)
  next => exact absurd rfl (unknown fatal)
  next => rfl

namespace Flag

/-- The two spellings of a flag. -/
def spellings : Flag → List String
  | directory => ["-d", "--dir"]
  | branches => ["-b", "--branches"]
  | digest => ["-a", "--hash"]
  | logFile => ["-l", "--log"]
  | level => ["-L", "--level"]

theorem spelled?_eq_some_iff {argument : String} {flag : Flag} :
    spelled? argument = some flag ↔ argument ∈ flag.spellings := by
  constructor
  · intro spelled
    unfold spelled? at spelled
    split at spelled <;> cases spelled <;> simp [spellings]
  · intro spelled
    cases flag <;> simp only [spellings, List.mem_cons, List.not_mem_nil, or_false] at spelled <;>
      rcases spelled with rfl | rfl <;> rfl

/-- The words that a flag admits: the name of a severity for the level, a text that starts with a number for
the branches, and any word for the others. -/
def Admits : Flag → String → Prop
  | level, word => ∃ severity : Severity, severity.name = word
  | branches, word => ∃ number, Numeral.Denotes word number
  | _, _ => True

end Flag

namespace Options

/-- What is asked for with a part of the arguments. -/
inductive Item where
  | verbose
  | value (flag : Flag) (word : String)
deriving DecidableEq

/-- The arguments that ask for an item. -/
inductive Item.Spelled : Item → List String → Prop where
  | verbose {switch : String} (known : switch ∈ ["-v", "--verbose"]) : Spelled .verbose [switch]
  | value {flag : Flag} {argument word : String} (known : argument ∈ flag.spellings)
      (admitted : flag.Admits word) : Spelled (.value flag word) [argument, word]

/-- The arguments that ask for items, one after the other. -/
inductive Spelled : List Item → List String → Prop where
  | nil : Spelled [] []
  | cons {item : Item} {items : List Item} {words rest : List String}
      (first : item.Spelled words) (others : Spelled items rest) :
      Spelled (item :: items) (words ++ rest)

/-- The word of an item for a flag. -/
def Item.word? (flag : Flag) : Item → Option String
  | .verbose => none
  | .value other word => if other = flag then some word else none

/-- The word of the last item for a flag. -/
def lastWord (flag : Flag) (items : List Item) : Option String :=
  items.reverse.findSome? (Item.word? flag)

/-- The option of a flag has the value that a word stands for. -/
def Shows (options : Options) : Flag → String → Prop
  | .directory, word => options.directory = word
  | .digest, word => options.digest = word
  | .logFile, word => options.logFile = word
  | .branches, word => Numeral.Denotes word options.branches
  | .level, word => options.level.name = word ∧ options.levelGiven = true

/-- The option of a flag is as it was. -/
def Keeps (options start : Options) : Flag → Prop
  | .directory => options.directory = start.directory
  | .digest => options.digest = start.digest
  | .logFile => options.logFile = start.logFile
  | .branches => options.branches = start.branches
  | .level => options.level = start.level ∧ options.levelGiven = start.levelGiven

/-- What items make of options: the option of each flag has the word of the last item for it, and is as it
was if there is none. -/
structure Sets (start : Options) (items : List Item) (options : Options) : Prop where
  shows : ∀ flag word, lastWord flag items = some word → options.Shows flag word
  keeps : ∀ flag, lastWord flag items = none → options.Keeps start flag
  verbose : options.verbose = true ↔ start.verbose = true ∨ Item.verbose ∈ items

/-- Arguments that start with no item, and how they are named: a word that is no flag, a flag without a word
behind it, or one with a word that it does not admit. -/
inductive Offends : List String → String → Prop where
  | unknown {argument : String} {rest : List String} (switch : argument ∉ ["-v", "--verbose"])
      (flag : ∀ flag : Flag, argument ∉ flag.spellings) :
      Offends (argument :: rest) ("Unknown argument: " ++ argument)
  | noValue {flag : Flag} {argument : String} (known : argument ∈ flag.spellings) :
      Offends [argument] ("Missing value for " ++ argument)
  | badLevel {argument word : String} {rest : List String} (known : argument ∈ Flag.level.spellings)
      (refused : ¬ Flag.level.Admits word) :
      Offends (argument :: word :: rest)
        ("Logger: Unknown severity level: " ++ Fault.untilNul word)
  | badBranches {argument word : String} {rest : List String}
      (known : argument ∈ Flag.branches.spellings) (refused : ¬ Flag.branches.Admits word) :
      Offends (argument :: word :: rest) ("Invalid branch count: " ++ word)

/-- The options with an item taken. -/
def take (options : Options) : Item → Options
  | .verbose => { options with verbose := true }
  | .value flag word => match options.set flag word with
    | .ok options => options
    | .error _ => options

variable {start options : Options} {item : Item} {items : List Item} {words rest : List String}

/-- What a flag admits can be set. -/
theorem set_of_admits {flag : Flag} {word : String} (admitted : flag.Admits word) :
    options.set flag word = .ok (options.take (.value flag word)) := by
  cases flag with
  | level =>
      obtain ⟨severity, rfl⟩ := admitted
      simp only [take, set, Severity.named_name]
  | branches =>
      obtain ⟨number, denoted⟩ := admitted
      simp only [take, set, Numeral.word?_eq_some_iff.mpr denoted]
  | directory => rfl
  | digest => rfl
  | logFile => rfl

theorem shows_take {flag : Flag} {word : String} (admitted : flag.Admits word) :
    (options.take (.value flag word)).Shows flag word := by
  cases flag with
  | level =>
      obtain ⟨severity, rfl⟩ := admitted
      simp only [take, set, Severity.named_name, Shows, and_self]
  | branches =>
      obtain ⟨number, denoted⟩ := admitted
      simp only [take, set, Numeral.word?_eq_some_iff.mpr denoted]
      exact denoted
  | directory => rfl
  | digest => rfl
  | logFile => rfl

theorem Keeps.refl (options : Options) (flag : Flag) : options.Keeps options flag := by
  cases flag with
  | level => exact ⟨rfl, rfl⟩
  | _ => rfl

theorem Keeps.trans {flag : Flag} {middle : Options} (second : options.Keeps middle flag)
    (first : middle.Keeps start flag) : options.Keeps start flag := by
  cases flag with
  | level => exact ⟨second.1.trans first.1, second.2.trans first.2⟩
  | directory => exact Eq.trans second first
  | digest => exact Eq.trans second first
  | logFile => exact Eq.trans second first
  | branches => exact Eq.trans second first

theorem Shows.of_keeps {flag : Flag} {word : String} {middle : Options}
    (shows : middle.Shows flag word) (keeps : options.Keeps middle flag) :
    options.Shows flag word := by
  cases flag with
  | level => exact ⟨keeps.1 ▸ shows.1, keeps.2.trans shows.2⟩
  | branches =>
      rw [Shows, show options.branches = middle.branches from keeps]
      exact shows
  | directory => exact Eq.trans keeps shows
  | digest => exact Eq.trans keeps shows
  | logFile => exact Eq.trans keeps shows

/-- Setting the option of a flag replaces it, and nothing else. -/
theorem set_cases {flag : Flag} {word : String} {after : Options}
    (result : options.set flag word = .ok after) :
    (flag = .directory ∧ after = { options with directory := word }) ∨
    (flag = .digest ∧ after = { options with digest := word }) ∨
    (flag = .logFile ∧ after = { options with logFile := word }) ∨
    (∃ number, flag = .branches ∧ after = { options with branches := number }) ∨
    ∃ severity, flag = .level ∧ after = { options with level := severity, levelGiven := true } := by
  cases flag with
  | directory => exact .inl ⟨rfl, (Except.ok.inj result).symm⟩
  | digest => exact .inr (.inl ⟨rfl, (Except.ok.inj result).symm⟩)
  | logFile => exact .inr (.inr (.inl ⟨rfl, (Except.ok.inj result).symm⟩))
  | branches =>
      simp only [set] at result
      split at result
      next number read => exact .inr (.inr (.inr (.inl ⟨number, rfl, (Except.ok.inj result).symm⟩)))
      next => cases result
  | level =>
      simp only [set] at result
      split at result
      next severity read =>
        exact .inr (.inr (.inr (.inr ⟨severity, rfl, (Except.ok.inj result).symm⟩)))
      next => cases result

/-- Setting the option of a flag leaves the others. -/
theorem keeps_set {flag : Flag} (other : Flag) {word : String} {after : Options}
    (result : options.set flag word = .ok after) (apart : flag ≠ other) :
    after.Keeps options other := by
  rcases set_cases result with ⟨rfl, rfl⟩ | ⟨rfl, rfl⟩ | ⟨rfl, rfl⟩ | ⟨number, rfl, rfl⟩ |
    ⟨severity, rfl, rfl⟩ <;> cases other <;> simp [Keeps] at apart ⊢

/-- An item leaves the options that it is not for. -/
theorem keeps_take {flag : Flag} (spelled : item.Spelled words) (other : item.word? flag = none) :
    (options.take item).Keeps options flag := by
  cases spelled with
  | verbose known => cases flag <;> first | rfl | exact ⟨rfl, rfl⟩
  | @value set argument word known admitted =>
      have apart : set ≠ flag := by
        rintro rfl
        rw [Item.word?, if_pos rfl] at other
        cases other
      exact keeps_set flag (set_of_admits admitted) apart

theorem verbose_take (spelled : item.Spelled words) :
    (options.take item).verbose = true ↔ options.verbose = true ∨ item = .verbose := by
  cases spelled with
  | verbose known => simp [take]
  | @value flag argument word known admitted =>
      have kept : (options.take (.value flag word)).verbose = options.verbose := by
        rcases set_cases (set_of_admits admitted) with ⟨-, same⟩ | ⟨-, same⟩ | ⟨-, same⟩ |
          ⟨_, -, same⟩ | ⟨_, -, same⟩ <;> rw [same]
      simp [kept]

/-- What an item for a flag has as its word is shown by the option. -/
theorem shows_take_of_word? {flag : Flag} {word : String} (spelled : item.Spelled words)
    (mentions : item.word? flag = some word) : (options.take item).Shows flag word := by
  cases spelled with
  | verbose known => cases mentions
  | @value set argument other known admitted =>
      rw [Item.word?] at mentions
      split at mentions
      next same =>
        subst same
        cases mentions
        exact shows_take admitted
      next => cases mentions

theorem lastWord_concat (flag : Flag) :
    lastWord flag (items ++ [item]) = (item.word? flag).or (lastWord flag items) := by
  rw [lastWord, List.reverse_append, List.reverse_singleton, List.singleton_append,
    List.findSome?_cons, lastWord]
  cases item.word? flag with
  | none => rfl
  | some word => rfl

/-- Nothing is set by no items. -/
theorem Sets.refl (start : Options) : Sets start [] start where
  shows := fun flag word last => by cases last
  keeps := fun flag _ => Keeps.refl start flag
  verbose := by simp

/-- One more item sets its option and leaves the others. -/
theorem Sets.concat (sets : Sets start items options) (spelled : item.Spelled words) :
    Sets start (items ++ [item]) (options.take item) where
  shows := by
    intro flag word last
    rw [lastWord_concat] at last
    rcases mentions : item.word? flag with _ | here
    · rw [mentions, Option.none_or] at last
      exact (sets.shows flag word last).of_keeps (keeps_take spelled mentions)
    · rw [mentions, Option.some_or] at last
      cases last
      exact shows_take_of_word? spelled mentions
  keeps := by
    intro flag last
    rw [lastWord_concat, Option.or_eq_none_iff] at last
    exact (keeps_take spelled last.1).trans (sets.keeps flag last.2)
  verbose := by
    rw [verbose_take spelled, sets.verbose, List.mem_append, List.mem_singleton, or_assoc,
      @eq_comm _ item]

/-! ### Reading -/

theorem isVerboseSwitch_of_mem_spellings {flag : Flag} {argument : String}
    (known : argument ∈ flag.spellings) : isVerboseSwitch argument = false := by
  cases flag <;> simp only [Flag.spellings, List.mem_cons, List.not_mem_nil, or_false] at known <;>
    rcases known with rfl | rfl <;> rfl

/-- How a flag with a word behind it is read. -/
theorem read_flag {flag : Flag} {argument : String} (known : argument ∈ flag.spellings)
    (word : String) (rest : List String) :
    read options (argument :: word :: rest) =
      match options.set flag word with
      | .ok options => read options rest
      | .error fault => (options, some fault) := by
  have noSwitch := isVerboseSwitch_of_mem_spellings known
  have named := Flag.spelled?_eq_some_iff.mpr known
  rw [read.eq_def]
  cases admitted : options.set flag word with
  | ok options => simp only [noSwitch, named, admitted, Bool.false_eq_true, if_false]
  | error fault => simp only [noSwitch, named, admitted, Bool.false_eq_true, if_false]

/-- Arguments that ask for an item are read as it. -/
theorem read_of_item (spelled : item.Spelled words) (rest : List String) :
    read options (words ++ rest) = read (options.take item) rest := by
  cases spelled with
  | verbose known =>
      rw [List.singleton_append, read.eq_def]
      simp only [isVerboseSwitch_iff.mpr known, if_true, take]
  | @value flag argument word known admitted =>
      rw [List.cons_append, List.singleton_append, read_flag known, set_of_admits admitted]

/-- Arguments that ask for items are read as them, and what follows is read after them. -/
theorem read_of_spelled (start : Options) (spelled : Spelled items words) (rest : List String) :
    read start (words ++ rest) = read (items.foldl take start) rest := by
  induction spelled generalizing start with
  | nil => rfl
  | cons first others ih => rw [List.append_assoc, read_of_item first, ih, List.foldl_cons]

/-- Further items set the options that they are for. -/
theorem Sets.append {before : List Item} (sets : Sets start before options)
    (spelled : Spelled items words) : Sets start (before ++ items) (items.foldl take options) := by
  induction spelled generalizing before options with
  | nil => rwa [List.append_nil]
  | @cons item items words rest first others ih =>
      rw [← List.singleton_append, ← List.append_assoc]
      exact ih (sets.concat first)

theorem sets_of_spelled (start : Options) (spelled : Spelled items words) :
    Sets start items (items.foldl take start) :=
  (Sets.refl start).append spelled

theorem untilNul_level (word : String) :
    Fault.untilNul ("Logger: Unknown severity level: " ++ word) =
      "Logger: Unknown severity level: " ++ Fault.untilNul word := by
  have plain : "Logger: Unknown severity level: ".toList.all (· ≠ '\x00') = true := by decide
  rw [Fault.untilNul, String.toList_append, List.takeWhile_append_of_pos (List.all_eq_true.mp plain),
    String.ofList_append, String.ofList_toList, Fault.untilNul]

/-- Arguments that start with no item are read no further, and the fault names what offends. -/
theorem read_of_offends {text : String} (offends : Offends rest text) :
    ∃ fault, read options rest = (options, some fault) ∧ fault.message = text := by
  cases offends with
  | @unknown argument rest switch flag =>
      have noSwitch : isVerboseSwitch argument = false :=
        Bool.eq_false_iff.mpr fun is => switch (isVerboseSwitch_iff.mp is)
      have noFlag : Flag.spelled? argument = none :=
        Option.eq_none_iff_forall_not_mem.mpr fun some spelled =>
          flag some (Flag.spelled?_eq_some_iff.mp spelled)
      refine ⟨.unknown argument, ?_, rfl⟩
      rw [read.eq_def]
      simp only [noSwitch, noFlag, Bool.false_eq_true, if_false]
  | @noValue flag argument known =>
      refine ⟨.noValue argument, ?_, rfl⟩
      rw [read.eq_def]
      simp only [isVerboseSwitch_of_mem_spellings known, Flag.spelled?_eq_some_iff.mpr known,
        Bool.false_eq_true, if_false]
  | @badLevel argument word rest known refused =>
      have unnamed := Severity.named_of_forall (not_exists.mp refused)
      refine ⟨.badLevel (.unknownSeverity word), ?_, untilNul_level word⟩
      rw [read_flag known, set]
      simp only [unnamed]
  | @badBranches argument word rest known refused =>
      have noNumber : Numeral.word? word = none :=
        Option.eq_none_iff_forall_not_mem.mpr fun number read =>
          refused ⟨number, Numeral.word?_eq_some_iff.mp read⟩
      refine ⟨.badBranches word, ?_, rfl⟩
      rw [read_flag known, set]
      simp only [noNumber]

/-- A flag with a word that it does not admit offends. -/
theorem exists_offends_of_refused {flag : Flag} {argument word : String}
    (known : argument ∈ flag.spellings) (refused : ¬ flag.Admits word) (rest : List String) :
    ∃ text, Offends (argument :: word :: rest) text := by
  cases flag with
  | level => exact ⟨_, .badLevel known refused⟩
  | branches => exact ⟨_, .badBranches known refused⟩
  | directory => exact absurd trivial refused
  | digest => exact absurd trivial refused
  | logFile => exact absurd trivial refused

/-- A word is the switch, or spells a flag, or is unknown. -/
theorem kinds_of_argument (argument : String) :
    argument ∈ ["-v", "--verbose"] ∨ (∃ flag : Flag, argument ∈ flag.spellings) ∨
      ∀ rest, ∃ text, Offends (argument :: rest) text := by
  by_cases switch : argument ∈ ["-v", "--verbose"]
  · exact .inl switch
  · by_cases known : ∃ flag : Flag, argument ∈ flag.spellings
    · exact .inr (.inl known)
    · exact .inr (.inr fun rest => ⟨_, .unknown switch (not_exists.mp known)⟩)

/-- Arguments ask for items up to their end, or to some that offend. -/
theorem exists_spelled (arguments : List String) :
    ∃ items words rest, arguments = words ++ rest ∧ Spelled items words ∧
      (rest = [] ∨ ∃ text, Offends rest text) := by
  induction arguments using List.twoStepInduction with
  | nil => exact ⟨[], [], [], rfl, .nil, .inl rfl⟩
  | singleton argument =>
      rcases kinds_of_argument argument with switch | ⟨flag, known⟩ | offends
      · exact ⟨_, _, [], rfl, .cons (.verbose switch) .nil, .inl rfl⟩
      · exact ⟨[], [], _, rfl, .nil, .inr ⟨_, .noValue known⟩⟩
      · exact ⟨[], [], _, rfl, .nil, .inr (offends [])⟩
  | cons_cons argument word others afterBoth afterFirst =>
      rcases kinds_of_argument argument with switch | ⟨flag, known⟩ | offends
      · obtain ⟨items, words, rest, parts, spelled, ending⟩ := afterFirst word
        refine ⟨_, _, rest, ?_, .cons (.verbose switch) spelled, ending⟩
        rw [parts]
        rfl
      · by_cases admitted : flag.Admits word
        · obtain ⟨items, words, rest, rfl, spelled, ending⟩ := afterBoth
          exact ⟨_, _, rest, rfl, .cons (.value known admitted) spelled, ending⟩
        · exact ⟨[], [], _, rfl, .nil, .inr (exists_offends_of_refused known admitted others)⟩
      · exact ⟨[], [], _, rfl, .nil, .inr (offends _)⟩

/-- Arguments that ask for items are read as them. -/
theorem ofArguments_of_spelled (program : String) (spelled : Spelled items words) :
    ofArguments program words = (items.foldl take default, true, "") := by
  have read := read_of_spelled default spelled []
  rw [List.append_nil] at read
  rw [ofArguments, read]
  rfl

/-- Arguments that come to offend are read as the items before, and the complaint names what offends. -/
theorem ofArguments_of_offends (program : String) {text : String} (spelled : Spelled items words)
    (offends : Offends rest text) :
    ofArguments program (words ++ rest) =
      (items.foldl take default, false, "Error: " ++ text ++ "\n" ++ usage program) := by
  obtain ⟨fault, stopped, rfl⟩ := read_of_offends offends
  rw [ofArguments, read_of_spelled default spelled, stopped]

/-- **The grammar of arguments.**  Arguments are valid exactly if they ask for items, one after the other.
Then every option is as the last item for it says, and as by default if there is none; there is no
complaint; and whatever is put behind them is read after them, further items being taken one by one.
Arguments that are not valid ask for items up to some that offend.  They set what the items before set, and
the complaint names what offends, with the usage below. -/
theorem grammar_of_arguments (program : String) (arguments : List String) :
    ((ofArguments program arguments).2.1 = true ↔ ∃ items, Spelled items arguments) ∧
    (∀ items, Spelled items arguments →
      Sets default items (ofArguments program arguments).1 ∧
      (ofArguments program arguments).2.2 = "" ∧
      (∀ others, read default (arguments ++ others) =
        read (ofArguments program arguments).1 others) ∧
      ∀ further others, Spelled further others →
        ofArguments program (arguments ++ others) =
            (further.foldl take (ofArguments program arguments).1, true, "") ∧
          Sets (ofArguments program arguments).1 further
            (ofArguments program (arguments ++ others)).1) ∧
    ((ofArguments program arguments).2.1 = false →
      ∃ items words rest text,
        arguments = words ++ rest ∧ Spelled items words ∧ Offends rest text) ∧
    ∀ items words rest text, arguments = words ++ rest → Spelled items words → Offends rest text →
      (ofArguments program arguments).2.1 = false ∧
      Sets default items (ofArguments program arguments).1 ∧
      (ofArguments program arguments).2.2 = "Error: " ++ text ++ "\n" ++ usage program := by
  refine ⟨⟨fun valid => ?_, fun ⟨items, spelled⟩ => ?_⟩, fun items spelled => ?_,
    fun invalid => ?_, ?_⟩
  · obtain ⟨items, words, rest, rfl, spelled, rfl | ⟨text, offends⟩⟩ := exists_spelled arguments
    · rw [List.append_nil]
      exact ⟨items, spelled⟩
    · rw [ofArguments_of_offends program spelled offends] at valid
      cases valid
  · rw [ofArguments_of_spelled program spelled]
  · rw [ofArguments_of_spelled program spelled]
    refine ⟨sets_of_spelled default spelled, rfl, read_of_spelled default spelled, ?_⟩
    intro further others next
    have both : ofArguments program (arguments ++ others) =
        (further.foldl take (items.foldl take default), true, "") := by
      have read := read_of_spelled (items.foldl take default) next []
      rw [List.append_nil] at read
      rw [ofArguments, read_of_spelled default spelled, read]
      rfl
    rw [both]
    exact ⟨rfl, sets_of_spelled _ next⟩
  · obtain ⟨items, words, rest, rfl, spelled, rfl | ⟨text, offends⟩⟩ := exists_spelled arguments
    · rw [List.append_nil, ofArguments_of_spelled program spelled] at invalid
      cases invalid
    · exact ⟨items, words, rest, text, rfl, spelled, offends⟩
  · rintro items words rest text rfl spelled offends
    rw [ofArguments_of_offends program spelled offends]
    exact ⟨rfl, sets_of_spelled default spelled, rfl⟩

end Options

end ChunkTree
