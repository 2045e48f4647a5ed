namespace QueryGrammar.Path

/-! Paths of files, as they are written. -/

/-- The parts of a path between its slashes, empty ones included. -/
def split : List Char → List (List Char)
  | [] => [[]]
  | '/' :: rest => [] :: split rest
  | c :: rest =>
      match split rest with
      | first :: others => (c :: first) :: others
      | [] => [[c]]

def parts (path : String) : List String :=
  (split path.toList).map String.ofList

/-- Whether a part of a path stays where it is. -/
def isIdle (part : String) : Bool :=
  part == "" || part == "."

/-- The longest name of a file, in bytes. -/
def longestName : Nat := 255

/-- The longest path, in bytes. -/
def longestPath : Nat := 4095

/-- Whether a part of a path is too long to name anything. -/
def isOverlong (part : String) : Bool :=
  longestName < part.utf8ByteSize

def isAbsolute (path : String) : Bool :=
  path.toList.head? == some '/'

/-- The name at the end of a path. -/
def fileName? (path : String) : Option String :=
  match ((parts path).filter (!isIdle ·)).getLast? with
  | some name => if name == ".." then none else some name
  | none => none

/-- What follows the last dot of a file name, unless the name starts with that dot. -/
def extension? (path : String) : Option String :=
  match fileName? path with
  | none => none
  | some name =>
      let reversed := name.toList.reverse
      match reversed.dropWhile (· != '.') with
      | _ :: _ :: _ => some (String.ofList (reversed.takeWhile (· != '.')).reverse)
      | _ => none

/-- Drops idle parts from the end, but not the first part of all. -/
def trimEnd (reversed : List String) : List String :=
  match reversed with
  | part :: next :: others => if isIdle part then trimEnd (next :: others) else reversed
  | _ => reversed

/-- The path of the directory in which a path is; that of a bare file name is empty. -/
def folder (path : String) : String :=
  match (trimEnd (parts path).reverse.tail).reverse with
  | [""] => "/"
  | found => String.intercalate "/" found

/-- A path taken from a directory on. -/
def join (folder path : String) : String :=
  if folder.isEmpty || isAbsolute path then path
  else if folder.toList.getLast? == some '/' then folder ++ path
  else folder ++ "/" ++ path

end QueryGrammar.Path
