import ChunkTree.Chunker
import ChunkTree.Severity
import ChunkTree.Shell

/-!
# Options

The options of the program, read from its arguments: switches, and flags with a value in the argument
that follows, whatever that looks like.  The last value of a flag counts.  Reading stops at the first
argument that cannot be read, and keeps what came before.
-/

namespace ChunkTree

/-- What the program is told. -/
structure Options where
  directory : String
  digest : String
  logFile : String
  branches : Nat
  level : Severity
  levelGiven : Bool
  verbose : Bool
deriving DecidableEq

/-- The flags that take a value. -/
inductive Flag where
  | directory
  | branches
  | digest
  | logFile
  | level
deriving DecidableEq

/-- Why arguments cannot be read. -/
inductive OptionsFault where
  | unknown (argument : String)
  | noValue (flag : String)
  | badLevel (fault : Fault)
  | badBranches (value : String)
deriving DecidableEq

/-- The wording of a fault. -/
def OptionsFault.message : OptionsFault → String
  | unknown argument => "Unknown argument: " ++ argument
  | noValue flag => "Missing value for " ++ flag
  | badLevel fault => fault.message
  | badBranches value => "Invalid branch count: " ++ value

/-- The flag that an argument spells. -/
def Flag.spelled? : String → Option Flag
  | "-d" | "--dir" => some .directory
  | "-b" | "--branches" => some .branches
  | "-a" | "--hash" => some .digest
  | "-l" | "--log" => some .logFile
  | "-L" | "--level" => some .level
  | _ => none

/-- Whether an argument is the switch for more output. -/
def isVerboseSwitch (argument : String) : Bool := argument = "-v" ∨ argument = "--verbose"

namespace Numeral

/-- The number that decimal digits spell, going on from `value`; the first other character ends it. -/
def digits (value : Nat) : List Char → Nat
  | [] => value
  | c :: rest => if c.isDigit then digits (10 * value + (c.toNat - 48)) rest else value

/-- The number at the start of a text: at least one digit, behind nothing or a sign, no more than a
word holds.  With a minus it is taken from zero around the end of words. -/
def signed? (text : List Char) : Option Nat :=
  let unsigned? (text : List Char) : Option Nat :=
    match text with
    | c :: _ => if c.isDigit ∧ digits 0 text < wordLimit then some (digits 0 text) else none
    | [] => none
  match text with
  | '-' :: rest => (unsigned? rest).map fun number => (wordLimit - number) % wordLimit
  | '+' :: rest => unsigned? rest
  | _ => unsigned? text

/-- The number that a text starts with, behind blanks; what follows the digits does not matter. -/
def word? (text : String) : Option Nat := signed? (text.toList.dropWhile Shell.isBlank)

end Numeral

namespace Options

/-- What holds if nothing is said. -/
def default : Options where
  directory := "swarm_store"
  digest := Hasher.defaultName
  logFile := "swarm.log"
  branches := Chunker.defaultBranches
  level := .info
  levelGiven := false
  verbose := false

/-- The options with the value of a flag set. -/
def set (options : Options) (flag : Flag) (value : String) : Except OptionsFault Options :=
  match flag with
  | .directory => .ok { options with directory := value }
  | .digest => .ok { options with digest := value }
  | .logFile => .ok { options with logFile := value }
  | .level => match Severity.named value with
    | .ok level => .ok { options with level := level, levelGiven := true }
    | .error fault => .error (.badLevel fault)
  | .branches => match Numeral.word? value with
    | some branches => .ok { options with branches := branches }
    | none => .error (.badBranches value)

/-- Reads arguments into options, up to the end or the first that cannot be read. -/
def read (options : Options) : List String → Options × Option OptionsFault
  | [] => (options, none)
  | argument :: rest =>
    if isVerboseSwitch argument then read { options with verbose := true } rest
    else match Flag.spelled? argument with
      | none => (options, some (.unknown argument))
      | some flag => match rest with
        | [] => (options, some (.noValue argument))
        | value :: rest => match options.set flag value with
          | .ok options => read options rest
          | .error fault => (options, some fault)

/-- How to call the program. -/
def usage (program : String) : String :=
  "Usage: " ++ program
    ++ " [-d <dir>] [-b <branches>] [-a <digest>] [-l <log file>] [-L <level>] [-v]\n"
    ++ "Optional arguments:\n"
    ++ "  -d, --dir        Chunk store directory (default swarm_store)\n"
    ++ "  -b, --branches   Branching factor of the chunk tree (default 128)\n"
    ++ "  -a, --hash       OpenSSL digest name (default SHA256)\n"
    ++ "  -l, --log        Log file (default swarm.log)\n"
    ++ "  -L, --level      Minimum log level: trace, debug, info, warning, error, fatal (default info)\n"
    ++ "  -v, --verbose    Echo the log to the console, at debug level unless -L is given\n"
    ++ "Example: " ++ program ++ " -d /tmp/swarm -b 128\n"

/-- The options in the arguments of a program, whether all could be read, and the complaint if not. -/
def ofArguments (program : String) (arguments : List String) : Options × Bool × String :=
  match read default arguments with
  | (options, none) => (options, true, "")
  | (options, some fault) => (options, false, "Error: " ++ fault.message ++ "\n" ++ usage program)

end Options

end ChunkTree
