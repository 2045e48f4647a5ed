import QueryGrammar.Text.Quoted

namespace QueryGrammar

/-! Reading and writing files, and why that fails. -/

inductive FileError where
  | notFound
  | notDirectory
  | isDirectory
  | permissionDenied
  /-- The path, or a name in it, is longer than the system allows. -/
  | nameTooLong
  /-- The path holds the character that ends paths for the system. -/
  | badPath
  /-- The contents are not text. -/
  | notText
  /-- Any other failure, by its number and description. -/
  | other (code : Nat) (description : String)
deriving DecidableEq, Repr

/-- How the contents of a file are got at by its path. -/
abbrev ReadFile (m : Type → Type) := String → m (Except FileError String)

namespace FileError

/-- The name of the kind of failure. -/
def kind : FileError → String
  | notFound => "NotFound"
  | notDirectory => "NotADirectory"
  | isDirectory => "IsADirectory"
  | permissionDenied => "PermissionDenied"
  | nameTooLong => "InvalidFilename"
  | badPath => "InvalidInput"
  | notText => "InvalidData"
  | other _ _ => "Other"

def described (error : FileError) (code : Nat) (description : String) : String :=
  "Os \x7b code: " ++ code.repr ++ ", kind: " ++ error.kind ++ ", message: " ++
    Text.quoted description ++ " \x7d"

def explained (error : FileError) (explanation : String) : String :=
  "Error \x7b kind: " ++ error.kind ++ ", message: " ++ Text.quoted explanation ++ " \x7d"

/-- The failure as a failing command shows it. -/
def shown (error : FileError) : String :=
  match error with
  | notFound => error.described 2 "No such file or directory"
  | notDirectory => error.described 20 "Not a directory"
  | isDirectory => error.described 21 "Is a directory"
  | permissionDenied => error.described 13 "Permission denied"
  | nameTooLong => error.described 36 "File name too long"
  | badPath => error.explained "file name contained an unexpected NUL byte"
  | notText => error.explained "stream did not contain valid UTF-8"
  | other code description => error.described code description

end FileError

end QueryGrammar
