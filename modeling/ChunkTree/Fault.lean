import ChunkTree.Key

/-!
# Faults

What can go wrong, as causes.  `Fault.message` gives the wording of each.
-/

namespace ChunkTree

/-- Why the file system refused a path. -/
inductive PathFault where
  | missing
  | notDirectory
  | isDirectory
  | nameTooLong
  | invalid
  | notEmpty
  /-- There is something else already. -/
  | taken
deriving DecidableEq

/-- The wording of a refusal. -/
def PathFault.message : PathFault → String
  | .missing => "No such file or directory"
  | .notDirectory => "Not a directory"
  | .isDirectory => "Is a directory"
  | .nameTooLong => "File name too long"
  | .invalid => "Invalid argument"
  | .notEmpty => "Directory not empty"
  | .taken => "File exists"

/-- The two kinds of store that keep chunks themselves. -/
inductive Keeper where
  | memory
  | disk
deriving DecidableEq

/-- How a keeper signs its messages. -/
def Keeper.name : Keeper → String
  | .memory => "Mem store"
  | .disk => "Disk store"

/-- What can go wrong. -/
inductive Fault where
  /-- A key is written with two digits a byte. -/
  | oddHex (length : Nat)
  | notHex (text : String)
  /-- A chunk starts with its size in eight bytes. -/
  | noSizeHeader (length : Nat)
  /-- The root claims more content than any tree can cover. -/
  | impossibleSize (root : Key) (size : Nat)
  /-- The store answered with a request instead of a chunk. -/
  | noData (key : Key)
  /-- A child's size differs from the one its place in the tree gives. -/
  | sizeMismatch (key : Key) (size expected : Nat)
  /-- A node is too short to hold the key of a branch. -/
  | noBranchKey (length branch : Nat)
  | branchesMismatch (key : Key) (size branches : Nat)
  | lengthMismatch (key : Key) (length expected : Nat)
  /-- The content of a chunk does not hash to its key. -/
  | integrity (key : Key)
  | chunkMissing (key : Key)
  /-- There is no digest of this name, or, if one was found, it has no fixed length. -/
  | unknownDigest (name : String) (found : Bool := false)
  | noHasher
  | emptyDigest
  | digestLength
  | tooFewBranches
  | noCollector
  /-- No window of a tree covers the content. -/
  | tooLarge
  | readOutside (count position size : Nat)
  | sliceOutside (start stop size : Nat)
  | noBuffer
  | fileUnopened (path : String)
  | fileSizeUnknown (path : String)
  | shortRead (path : String)
  | requestRefused (keeper : Keeper)
  | baseUncreated (cause : Fault)
  | directoryUncreated (cause : Fault)
  /-- The file of a chunk could not be made, or, if it was opened, not be written. -/
  | chunkFileUncreated (path : String) (opened : Bool := false)
  | chunkUnplaced (key : Key)
  | chunkFileUnopened (path : String)
  | putUnreachable
  | getUnreachable
  | inputInvalid
  | outputFailed
  | unknownSeverity (name : String)
  /-- The file system refused an operation on a path. -/
  | fileSystem (operation : String) (reason : PathFault) (path : String)
  /-- A directory was read as a file. -/
  | directoryRead
  /-- More memory was asked for than there is. -/
  | memoryExhausted
  /-- A run of bytes would have more positions than can be counted. -/
  | runTooLong
  /-- A store failed in a way that carries no message. -/
  | foreign
deriving DecidableEq

namespace Fault

/-- A text up to its first NUL character. -/
def untilNul (text : String) : String := String.ofList (text.toList.takeWhile (· ≠ '\x00'))

/-- The full wording of a fault. -/
def text : Fault → String
  | oddHex length => "Key: Hex string has odd length: " ++ toString length
  | notHex text => "Key: Invalid hex character in: " ++ text
  | noSizeHeader length => "Malformed chunk: buffer of " ++ toString length ++ " bytes has no size prefix"
  | impossibleSize root size =>
    "Malformed chunk: root chunk " ++ root.toHex ++ " encodes an impossible size " ++ toString size
  | noData key => "Malformed chunk: chunk " ++ key.toHex ++ " has no data"
  | sizeMismatch key size expected =>
    "Malformed chunk: chunk " ++ key.toHex ++ " encodes " ++ toString size ++ " bytes, parent expects "
      ++ toString expected
  | noBranchKey length branch =>
    "Malformed chunk: node of " ++ toString length ++ " bytes has no key for branch " ++ toString branch
  | branchesMismatch key size branches =>
    "Malformed chunk: chunk " ++ key.toHex ++ " encodes " ++ toString size ++ " bytes, which needs "
      ++ toString branches ++ " branches"
  | lengthMismatch key length expected =>
    "Malformed chunk: chunk " ++ key.toHex ++ " has " ++ toString length ++ " bytes, expected "
      ++ toString expected
  | integrity key => "Integrity error: content does not match key " ++ key.toHex
  | chunkMissing key => "Chunk not found: " ++ key.toHex
  | unknownDigest name false => "Hash configuration error: unknown digest '" ++ name ++ "'"
  | unknownDigest name true =>
    "Hash configuration error: digest '" ++ name ++ "' has no fixed output length"
  | noHasher => "Hash configuration error: no hasher provided"
  | emptyDigest => "Hash configuration error: digest length is zero"
  | digestLength => "Hash configuration error: hasher returned a digest of unexpected length"
  | tooFewBranches => "Tree chunker: branches must be at least 2"
  | noCollector => "Tree chunker: split needs a chunk collector"
  | tooLarge => "Tree chunker: input too large for tree arithmetic"
  | readOutside count position size =>
    "Section reader: read of " ++ toString count ++ " bytes at " ++ toString position
      ++ " exceeds section of " ++ toString size ++ " bytes"
  | sliceOutside start stop size =>
    "Section reader: invalid slice [" ++ toString start ++ ", " ++ toString stop ++ ") of section with "
      ++ toString size ++ " bytes"
  | noBuffer => "Section reader: null buffer"
  | fileUnopened path => "Section reader: Failed to open file: " ++ path
  | fileSizeUnknown path => "Section reader: Failed to get file size: " ++ path
  | shortRead path => "Section reader: Short read from file: " ++ path
  | requestRefused keeper => keeper.name ++ ": Cannot store a chunk without data"
  | baseUncreated cause => "Disk store: Failed to create base directory: " ++ cause.text
  | directoryUncreated cause => "Disk store: Failed to create directory: " ++ cause.text
  | chunkFileUncreated path false => "Disk store: Failed to create file: " ++ path
  | chunkFileUncreated path true => "Disk store: Failed to write file: " ++ path
  | chunkUnplaced key => "Disk store: Failed to store chunk " ++ key.toHex
  | chunkFileUnopened path => "Disk store: Failed to open file: " ++ path
  | putUnreachable => "Unreachable store: put refused"
  | getUnreachable => "Unreachable store: get refused"
  | inputInvalid => "DPA: Invalid input stream"
  | outputFailed => "DPA: Failed to write to output stream"
  | unknownSeverity name => "Logger: Unknown severity level: " ++ name
  | fileSystem operation reason path =>
    "filesystem error: " ++ operation ++ ": " ++ reason.message ++ " [" ++ path ++ "]"
  | directoryRead =>
    "basic_filebuf::underflow error reading the file: " ++ PathFault.isDirectory.message
  | memoryExhausted => "std::bad_alloc"
  | runTooLong => "cannot create std::vector larger than max_size()"
  | foreign => ""

/-- The message of a fault.  Names may hold any character, but a message ends at its first NUL. -/
def message (fault : Fault) : String := untilNul fault.text

end Fault

end ChunkTree
