import QueryGrammar.Shell.Arguments

namespace QueryGrammar.Shell

/-! The commands of the command line. -/

/-- Where an engine comes from. -/
structure EngineSource where
  grammar : String
  config : Option String
  entities : Option String
deriving DecidableEq, Repr

/-- What is shown of an answer. -/
structure Display where
  results : Option Nat := none
  costs : Bool := false
  trees : Bool := false
  forest : Bool := false
  forestGraph : Bool := false
  states : Bool := false
  ambiguity : Bool := false
  objects : Bool := false
deriving DecidableEq, Repr

inductive Command where
  /-- Compiles a grammar, and writes the table to a file or sums it up. -/
  | compile (grammar : String) (output : Option String) (states : Bool)
  /-- Answers a query, or one after another if none is given. -/
  | parse (source : EngineSource) (display : Display) (query : List String)
  /-- Checks that the queries in a file read back as typed. -/
  | check (source : EngineSource) (queries : String)
deriving DecidableEq, Repr

/-- What the arguments of the program ask for. -/
inductive Invocation where
  | run (command : Command)
  | showVersion
  | showHelp
  | misuse
deriving DecidableEq, Repr

def helpSwitch : Switch :=
  { name := helpName, short := some 'h' }

def sourceSwitches : List Switch := [
  { name := "config", value := some .path },
  { name := "entities", short := some 'e', value := some .path }]

def compileUsage : Usage where
  switches := [
    { name := "output", short := some 'o', value := some .path },
    { name := "states" },
    helpSwitch]
  paths := 1

def parseUsage : Usage where
  switches := sourceSwitches ++ [
    { name := "results", short := some 'k', isLong := false, value := some .count },
    { name := "costs", short := some 'c' },
    { name := "trees", short := some 't' },
    { name := "forest", short := some 'f' },
    { name := "forest-graph" },
    { name := "states" },
    { name := "ambiguity", short := some 'a' },
    { name := "object-semantics", short := some 'o' },
    { name := "benchmark", value := some .repetitions },
    helpSwitch]
  paths := 1
  takesWords := true

def checkUsage : Usage where
  switches := sourceSwitches ++ [helpSwitch]
  paths := 2

namespace Command

def sourceOf (arguments : List Argument) (grammar : String) : EngineSource where
  grammar := grammar
  config := Arguments.value? "config" arguments
  entities := Arguments.value? "entities" arguments

def compileOf? (arguments : List Argument) : Option Command :=
  match Arguments.operands arguments with
  | [grammar] =>
      some (.compile grammar (Arguments.value? "output" arguments)
        (Arguments.hasFlag arguments "states"))
  | _ => none

/-- What is to be shown. The repetitions of a benchmark are not heeded: nothing is timed. -/
def displayOf (arguments : List Argument) : Display where
  results := (Arguments.value? "results" arguments).bind count?
  costs := Arguments.hasFlag arguments "costs"
  trees := Arguments.hasFlag arguments "trees"
  forest := Arguments.hasFlag arguments "forest"
  forestGraph := Arguments.hasFlag arguments "forest-graph"
  states := Arguments.hasFlag arguments "states"
  ambiguity := Arguments.hasFlag arguments "ambiguity"
  objects := Arguments.hasFlag arguments "object-semantics"

def parseOf? (arguments : List Argument) : Option Command :=
  match Arguments.operands arguments with
  | grammar :: query => some (.parse (sourceOf arguments grammar) (displayOf arguments) query)
  | [] => none

def checkOf? (arguments : List Argument) : Option Command :=
  match Arguments.operands arguments with
  | [grammar, queries] => some (.check (sourceOf arguments grammar) queries)
  | _ => none

end Command

namespace Invocation

/-- The invocation of one command. What stands before the flag that asks for help has to be in
order, but need not be complete. -/
def ofCommand (usage : Usage) (build : List Argument → Option Command)
    (arguments : List String) : Invocation :=
  match readArguments usage.switches none arguments with
  | none => .misuse
  | some found =>
      if !usage.admits found then .misuse
      else if Arguments.hasFlag found helpName then .showHelp
      else match build found with
        | some command => .run command
        | none => .misuse

def commandNames : List String :=
  ["compile", "parse", "check", helpName]

/-- Help can be asked for on one command, and commands have no parts with help of their own. -/
def helpOn : List String → Invocation
  | [] => .showHelp
  | [name] => if commandNames.contains name then .showHelp else .misuse
  | _ => .misuse

/-- The name of a command comes first; without one, the program can be asked for its version or
for help. -/
def ofArguments : List String → Invocation
  | [] => .misuse
  | "compile" :: rest => ofCommand compileUsage Command.compileOf? rest
  | "parse" :: rest => ofCommand parseUsage Command.parseOf? rest
  | "check" :: rest => ofCommand checkUsage Command.checkOf? rest
  | "help" :: rest => helpOn rest
  | "--version" :: _ => .showVersion
  | "--help" :: _ => .showHelp
  | first :: _ =>
      match first.toList with
      | '-' :: 'V' :: _ => .showVersion
      | '-' :: 'h' :: _ => .showHelp
      | _ => .misuse

end Invocation

end QueryGrammar.Shell
