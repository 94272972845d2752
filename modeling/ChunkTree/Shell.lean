import ChunkTree.Allowance
import ChunkTree.FileSection
import ChunkTree.Key.Text
import ChunkTree.OutputFile

/-!
# The shell

The shell reads lines and carries out one command a line until it meets `quit` or the end.  It asks
for each line with a prompt.  A command that fails says so and the shell goes on; only a store that
fails without a message ends it.
-/

namespace ChunkTree

variable {σ : Type}

/-- An archive with a shell around it. -/
structure Shell (σ : Type) where
  archive : Archive σ
  /-- The store that is asked whether it has a key. -/
  store : Store σ
  /-- Where the files are that commands name. -/
  files : Place σ FileSystem
  /-- How much is held at once. -/
  allowance : Allowance
  /-- What goes on while the shell waits for a line. -/
  idle : σ → σ
  /-- How many more bytes a file can take that is opened now, if there is a bound. -/
  room : σ → Option Nat

namespace Shell

/-- The characters between words. -/
def isBlank (c : Char) : Bool :=
  c = ' ' ∨ c = '\t' ∨ c = '\n' ∨ c = '\x0b' ∨ c = '\x0c' ∨ c = '\r'

/-- The words of a line, given the characters read of the current one, the last first. -/
def wordsFrom (current : List Char) : List Char → List (List Char)
  | [] => if current = [] then [] else [current.reverse]
  | c :: rest =>
    if !isBlank c then wordsFrom (c :: current) rest
    else if current = [] then wordsFrom [] rest
    else current.reverse :: wordsFrom [] rest

/-- The words of a line. -/
def words (line : List Char) : List String := (wordsFrom [] line).map String.ofList

/-- The lines of a text, each with the text that follows it, given the characters read of the current
one, the last first.  The end of the text ends a line only if the line has characters. -/
def linesFrom (current : List Char) : List Char → List (List Char × List Char)
  | [] => if current = [] then [] else [(current.reverse, [])]
  | c :: rest =>
    if c = '\n' then (current.reverse, rest) :: linesFrom [] rest else linesFrom (c :: current) rest

/-- The lines of a text, each with the text that follows it. -/
def lines (text : List Char) : List (List Char × List Char) := linesFrom [] text

/-- Asks for a line. -/
def prompt : String := "swarm> "

/-- The answer to `help`. -/
def helpText : String :=
  "Commands:\n"
    ++ "  store <file>            Store a file, prints its root key\n"
    ++ "  read <key> [out file]   Print content or write it to a file\n"
    ++ "  has <key>               Check whether a chunk is stored\n"
    ++ "  size <key>              Print the content length under a root key\n"
    ++ "  help                    Show this message\n"
    ++ "  quit                    Exit\n"

/-- Adds a text to the output. -/
def print (text : String) : Action (σ × Bytes) Unit :=
  .update fun (state, output) => (state, output ++ Bytes.ofText text)

/-- Prints what went wrong; a fault without a message goes on as a fault. -/
def report (label : String) (fault : Fault) : Action (σ × Bytes) Unit :=
  if fault = .foreign then throw .foreign else print (label ++ ": " ++ fault.message ++ "\n")

variable (shell : Shell σ)

/-- Keeps a file and prints its root key. -/
def storeFile (path : String) : Action (σ × Bytes) Unit := do
  let work : Action σ Key := do
    let part ← (Section.ofFile path).within shell.files
    shell.archive.keepAllowed shell.allowance (part.within shell.files)
  match ← (work.within .fst).attempt with
  | .ok root => print (root.toHex ++ "\n")
  | .error fault => report "Error storing file" fault

/-- Prints what went wrong with a read.  A missing chunk is named. -/
def reportRead (fault : Fault) : Action (σ × Bytes) Unit :=
  match fault with
  | .chunkMissing key => print ("Content incomplete, missing chunk: " ++ key.toHex ++ "\n")
  | fault => report "Error reading content" fault

/-- Prints the content under a root key. -/
def readOut (root : Key) : Action (σ × Bytes) Unit := do
  let sink : Sink (σ × Bytes) := fun bytes => do
    .update fun (state, output) => (state, output ++ bytes)
    return true
  match ← ((shell.archive.within .fst).readToAllowed shell.allowance root sink).attempt with
  | .ok _ => print "\n"
  | .error fault => reportRead fault

/-- Writes the content under a root key to a file that is open, and closes the file, also after a fault. -/
def fill (root : Key) (file : OutputFile) : Action σ (Except Fault Nat) := .of fun state =>
  let sink : Sink (σ × OutputFile) := fun bytes => .of fun (state, file) =>
    let (files, file, taken) := file.write (shell.files.view state) bytes
    (.ok taken, (shell.files.update files state, file))
  let (outcome, (state, file)) :=
    ((shell.archive.within .fst).readToAllowed shell.allowance root sink).run (state, file)
  (.ok outcome, shell.files.update (file.close (shell.files.view state)) state)

/-- Writes the content under a root key to a file.  The file loses its old content first, and keeps
what was written before a fault. -/
def readFile (root : Key) (path : String) : Action (σ × Bytes) Unit := do
  let state := (← .state).1
  match (shell.files.view state).create path with
  | .error _ => print ("Error reading content: cannot open " ++ path ++ "\n")
  | .ok (number, files) =>
    .update fun (state, output) => (shell.files.update files state, output)
    match ← (shell.fill root (.opened number (shell.room state))).within .fst with
    | .ok count => print ("Wrote " ++ toString count ++ " bytes to " ++ path ++ "\n")
    | .error fault => reportRead fault

/-- Prints the content under a key, or writes it to a file if one is named. -/
def read (hex path : String) : Action (σ × Bytes) Unit :=
  match Key.ofHex hex with
  | .error fault => reportRead fault
  | .ok root => if path = "" then shell.readOut root else shell.readFile root path

/-- Prints whether the store has a chunk. -/
def has (hex : String) : Action (σ × Bytes) Unit := do
  let work : Action σ Bool := do
    return (← shell.store.get (← .lift (Key.ofHex hex))).isSome
  match ← (work.within .fst).attempt with
  | .ok true => print "yes\n"
  | .ok false => print "no\n"
  | .error fault => report "Error looking up key" fault

/-- Prints the length of the content under a root key. -/
def size (hex : String) : Action (σ × Bytes) Unit := do
  let work : Action σ Nat := do
    return (← shell.archive.openAt (← .lift (Key.ofHex hex))).size
  match ← (work.within .fst).attempt with
  | .ok size => print (toString size ++ "\n")
  | .error fault => report "Error reading size" fault

/-- Carries out a command.  All but `help` need an argument. -/
def respond (command argument extra : String) : Action (σ × Bytes) Unit :=
  if command = "help" then print helpText
  else if argument = "" then print "Invalid input. Usage: <command> <argument>, try 'help'\n"
  else match command with
    | "store" => shell.storeFile argument
    | "read" => shell.read argument extra
    | "has" => shell.has argument
    | "size" => shell.size argument
    | _ => print ("Unknown command: " ++ command ++ "\n")

/-- Carries out a line: its first word is the command, and at most two more count.  A blank line does
nothing. -/
def obey (line : List String) : Action (σ × Bytes) Unit :=
  match line with
  | [] => pure ()
  | command :: arguments =>
    shell.respond command (arguments.getD 0 "") (arguments.getD 1 "")

/-- Takes a line: `quit` ends the shell, and after anything else it asks for the next.  The answer is
whether it goes on. -/
def take (line : List Char) : Action (σ × Bytes) Bool :=
  let line := words line
  if line.head? = some "quit" then pure false
  else do
    shell.obey line
    .update fun (state, output) => (shell.idle state, output)
    print prompt
    return true

/-- Takes lines for as long as the shell goes on.  The answer is the text that is left. -/
def serve : List (List Char × List Char) → Action (σ × Bytes) (List Char)
  | [] => pure []
  | (line, rest) :: others => do
    if ← shell.take line then serve others else return rest

/-- Runs the shell on a text. -/
def run (text : List Char) : Action (σ × Bytes) (List Char) := do
  print prompt
  shell.serve (lines text)

end Shell

end ChunkTree
