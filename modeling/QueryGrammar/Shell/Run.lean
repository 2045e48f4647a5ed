import QueryGrammar.Files.Tree
import QueryGrammar.Shell.Session

namespace QueryGrammar.Shell

/-! Runs of the program, from its arguments, input and files to what it leaves behind. -/

structure Transcript where
  code : Nat
  output : String
  errors : String
  files : FileTree
deriving DecidableEq, Repr

def version : String :=
  "phrasebender-cli 0.1.0\n"

def usage : String :=
  "Usage: phrasebender-cli compile GRAMMAR [-o OUTPUT] [--states]\n" ++
  "       phrasebender-cli parse GRAMMAR [--config CONFIG] [-e ENTITIES] [-k K] [-c] [-t] [-f]\n" ++
  "                              [--forest-graph] [--states] [-a] [-o] [QUERY]...\n" ++
  "       phrasebender-cli check GRAMMAR [--config CONFIG] [-e ENTITIES] QUERIES\n"

/-- The prompt that every line is typed behind. -/
def promptText : String :=
  "> "

/-- The errors of a command that fails. -/
def failureText (failure : String) : String :=
  "Error: " ++ failure ++ "\n"

/-- A conversation over all lines of the input, up to the prompt that the end of the input
answers. -/
def Session.converse (session : Session) (input : String) : String :=
  session.greeting ++
    String.join ((Text.linesOf input).map fun typed => promptText ++ session.reply typed) ++
    promptText

/-- A report as it happens to some files: the output, then the file that is written, then the
failure. -/
def Report.transcript (report : Report) (files : FileTree) : Transcript :=
  let fail (failure : String) (files : FileTree) : Transcript :=
    ⟨1, report.output, failureText failure, files⟩
  let finish (files : FileTree) : Transcript :=
    match report.failure with
    | some failure => fail failure files
    | none => ⟨0, report.output, "", files⟩
  match report.written with
  | none => finish files
  | some (path, content) =>
      match files.write path content with
      | .ok written => finish written
      | .error error => fail error.shown files

/-- A run of the program on a file tree. -/
def run (files : FileTree) (arguments : List String) (input : String) : Transcript :=
  match Invocation.ofArguments arguments with
  | .showVersion => ⟨0, version, "", files⟩
  | .showHelp => ⟨0, usage, "", files⟩
  | .misuse => ⟨2, "", usage, files⟩
  | .run command =>
      let read : ReadFile Id := files.read
      match command.outcome read with
      | .done report => report.transcript files
      | .prompt session => ⟨0, session.converse input, "", files⟩

end QueryGrammar.Shell
