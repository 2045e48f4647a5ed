import QueryGrammar.Shell.Run

/-! The program itself: the commands of the shell on the files and the streams of the system. -/

namespace QueryGrammar.Shell

/-- The number by which the system tells that a directory was met where a file was expected. -/
def directoryCode : UInt32 := 21

/-- The number by which the system tells that a path or a name in it is too long. -/
def overlongCode : UInt32 := 36

def fileErrorOf : IO.Error → FileError
  | .noFileOrDirectory _ _ _ => .notFound
  | .permissionDenied _ _ _ => .permissionDenied
  | .inappropriateType _ code _ => if code == directoryCode then .isDirectory else .notDirectory
  | .invalidArgument _ code _ => if code == overlongCode then .nameTooLong else .badPath
  | .userError _ => .notText
  | error => .other 0 error.toString

def readSystemFile (path : String) : IO (Except FileError String) := do
  try
    return .ok (← IO.FS.readFile path)
  catch error =>
    return .error (fileErrorOf error)

/-- Prints a failure, and returns the code of failing commands. -/
def fail (failure : String) : IO UInt32 := do
  IO.eprint (failureText failure)
  return 1

def perform (report : Report) : IO UInt32 := do
  IO.print report.output
  if let some (path, content) := report.written then
    try
      IO.FS.writeFile path content
    catch error =>
      return (← fail (fileErrorOf error).shown)
  match report.failure with
  | some failure => fail failure
  | none => return 0

partial def serve (session : Session) (input output : IO.FS.Stream) : IO Unit := do
  output.putStr promptText
  output.flush
  let typed ← input.getLine
  unless typed.isEmpty do
    output.putStr (session.reply typed)
    serve session input output

end QueryGrammar.Shell

open QueryGrammar.Shell in
/-- Runs the command that the arguments ask for. -/
def main (arguments : List String) : IO UInt32 := do
  match Invocation.ofArguments arguments with
  | .showVersion =>
      IO.print version
      return 0
  | .showHelp =>
      IO.print usage
      return 0
  | .misuse =>
      IO.eprint usage
      return 2
  | .run command =>
      match ← command.outcome readSystemFile with
      | .done report => perform report
      | .prompt session =>
          IO.print session.greeting
          serve session (← IO.getStdin) (← IO.getStdout)
          return 0
