/-!
# Paths

A path is a text of names with slashes between them.  Empty names do not count, and a slash at the
end asks for a directory.
-/

namespace ChunkTree.Path

/-- The runs of characters between separators: one more than there are separators. -/
def cut (separator : Char) : List Char → List (List Char)
  | [] => [[]]
  | c :: rest =>
    if c = separator then [] :: cut separator rest
    else match cut separator rest with
      | [] => [[c]]
      | first :: others => (c :: first) :: others

/-- The names of a path. -/
def names (path : String) : List String :=
  ((cut '/' path.toList).filter (· ≠ [])).map String.ofList

/-- Whether the path ends in a slash. -/
def endsInSlash (path : String) : Bool := path.toList.getLast? = some '/'

/-- The path of a name in a directory. -/
def child (directory name : String) : String :=
  if directory = "" ∨ endsInSlash directory then directory ++ name else directory ++ "/" ++ name

/-- The path without the slashes at its end; of slashes alone, one is left. -/
def trimmed (path : String) : String :=
  match path.toList.reverse.dropWhile (· = '/') with
  | [] => if path = "" then "" else "/"
  | rest => String.ofList rest.reverse

/-- Whether the path starts at the root. -/
def isAbsolute (path : String) : Bool := path.toList.head? = some '/'

/-- The path up to its last slash, without the slashes there; empty if it has none. -/
def parent (path : String) : String :=
  trimmed (String.ofList (path.toList.reverse.dropWhile (· ≠ '/')).reverse)

/-- Names with slashes between them. -/
def ofNames (names : List String) : String := String.intercalate "/" names

end ChunkTree.Path
