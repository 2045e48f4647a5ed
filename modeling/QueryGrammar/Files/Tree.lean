import QueryGrammar.Files.Basic
import QueryGrammar.Files.Path

namespace QueryGrammar

/-! Directories as values.

A file tree is what a working directory holds.  Directories are there as long as files are in
them.  Outside of the working directory there is nothing.
-/

structure FileTree where
  /-- Files with the directories they are in, from the outside in, and their own name. -/
  files : List (List String × String)
deriving DecidableEq, Repr

namespace FileTree

def empty : FileTree := ⟨[]⟩

inductive Entry where
  | file (content : String)
  | directory
deriving DecidableEq, Repr

/-- Where a walk through a tree is: in a directory of it, or outside. -/
abbrev Place := Option (List String)

def contentOf? (place : List String) : List (List String × String) → Option String
  | [] => none
  | (present, content) :: rest =>
      if present = place then some content else contentOf? place rest

def entryAt? (tree : FileTree) (place : List String) : Option Entry :=
  match contentOf? place tree.files with
  | some content => some (.file content)
  | none =>
      if place.isEmpty || tree.files.any fun (present, _) => place.isPrefixOf present then
        some .directory
      else none

/-- One directory up. -/
def leave : Place → Place
  | none => none
  | some place => if place.isEmpty then none else some place.dropLast

/-- Where a name leads from a directory, and what is there. Overlong names are refused before
they are looked for. -/
def lookUp (tree : FileTree) (place : Place) (name : String) :
    Except FileError (List String × Entry) :=
  if Path.isOverlong name then .error .nameTooLong
  else match place with
    | none => .error .notFound
    | some place =>
        match tree.entryAt? (place ++ [name]) with
        | none => .error .notFound
        | some entry => .ok (place ++ [name], entry)

/-- What the last of some parts names, where each of them but the last has to be a directory. -/
def walk (tree : FileTree) (place : Place) : List String → Except FileError Entry
  | [] => .ok .directory
  | part :: rest =>
      if Path.isIdle part then walk tree place rest
      else if part == ".." then walk tree (leave place) rest
      else match tree.lookUp place part with
        | .error error => .error error
        | .ok (here, .directory) => walk tree (some here) rest
        | .ok (_, .file content) =>
            if rest.isEmpty then .ok (.file content) else .error .notDirectory

/-- Where parts lead that all have to be directories. -/
def enter (tree : FileTree) (place : Place) : List String → Except FileError Place
  | [] => .ok place
  | part :: rest =>
      if Path.isIdle part then enter tree place rest
      else if part == ".." then enter tree (leave place) rest
      else match tree.lookUp place part with
        | .error error => .error error
        | .ok (here, .directory) => enter tree (some here) rest
        | .ok (_, .file _) => .error .notDirectory

def startOf (path : String) : Place :=
  if Path.isAbsolute path then none else some []

/-- Why a path cannot be walked at all. -/
def refusal? (path : String) : Option FileError :=
  if path.toList.contains '\x00' then some .badPath
  else if path.isEmpty then some .notFound
  else if Path.longestPath < path.utf8ByteSize then some .nameTooLong
  else none

def read (tree : FileTree) (path : String) : Except FileError String :=
  match refusal? path with
  | some error => .error error
  | none => match walk tree (startOf path) (Path.parts path) with
    | .ok (.file content) => .ok content
    | .ok .directory => .error .isDirectory
    | .error error => .error error

def setContent (place : List String) (content : String) :
    List (List String × String) → List (List String × String)
  | [] => [(place, content)]
  | (present, old) :: rest =>
      if present = place then (place, content) :: rest
      else (present, old) :: setContent place content rest

/-- Writes a file into a directory that is there. A path that ends like one of a directory cannot
be written to. -/
def write (tree : FileTree) (path content : String) : Except FileError FileTree :=
  match refusal? path with
  | some error => .error error
  | none =>
      match (Path.parts path).reverse.dropWhile (· == "") with
      | [] => .error .isDirectory
      | name :: outer => do
          let place ← tree.enter (startOf path) outer.reverse
          if name == "." || name == ".." || path.toList.getLast? == some '/' then
            .error .isDirectory
          else if Path.isOverlong name then .error .nameTooLong
          else match place with
            | none => .error .notFound
            | some place =>
                match tree.entryAt? (place ++ [name]) with
                | some .directory => .error .isDirectory
                | _ => .ok ⟨setContent (place ++ [name]) content tree.files⟩

/-- A tree of files by their paths. -/
def ofList (files : List (String × String)) : FileTree :=
  ⟨files.foldl (fun tree (path, content) =>
    setContent ((Path.parts path).filter (!Path.isIdle ·)) content tree) []⟩

theorem contentOf?_setContent (place other : List String) (content : String)
    (files : List (List String × String)) :
    contentOf? other (setContent place content files) =
      if place = other then some content else contentOf? other files := by
  induction files with
  | nil => rfl
  | cons first rest step =>
      obtain ⟨present, old⟩ := first
      by_cases here : present = place
      · subst here
        by_cases same : present = other <;> simp [setContent, contentOf?, same]
      · by_cases same : present = other
        · subst same
          simp [setContent, contentOf?, here, Ne.symm here]
        · simp [setContent, contentOf?, here, same, step]

end FileTree

end QueryGrammar
