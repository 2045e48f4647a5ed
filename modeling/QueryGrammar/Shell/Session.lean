import QueryGrammar.Engine.Setup
import QueryGrammar.Forest.Display
import QueryGrammar.Json.Writer
import QueryGrammar.Shell.Command

namespace QueryGrammar.Shell

open Decimal

/-! What commands do, apart from reading and writing: texts to print, files to write, and failures
to report. -/

/-- What a command is done with. -/
structure Report where
  output : String := ""
  /-- A file to write after the output, and its content. -/
  written : Option (String × String) := none
  /-- Why the command fails after that, if it does. -/
  failure : Option String := none
deriving DecidableEq, Repr

/-- A prompt, behind which every line is a query. -/
structure Session where
  /-- Printed before the first prompt. -/
  greeting : String
  /-- What is printed for a query. -/
  reply : String → String

inductive Outcome where
  | done (report : Report)
  | prompt (session : Session)

def line (text : String) : String :=
  text ++ "\n"

def failed (failure : String) : Report :=
  { failure := some failure }

/-- A fault as a failing command shows it. -/
def faultShown (_ : Fault) : String :=
  "Fault"

def parseErrorShown : ParseError → String
  | .emptyInput => "EmptyInput"
  | .noDerivation query => "NoDerivation \x7b query: " ++ Text.quoted query ++ " \x7d"

/-! ## Compiling -/

def summary (grammar : Grammar Amount) (table : Table Amount) : String :=
  grammar.ruleCount.repr ++ " rules (" ++ table.rules.size.repr ++ " compiled), " ++
    table.symbols.size.repr ++ " symbols, " ++ table.states.size.repr ++ " states"

/-- A table as it is printed, with an empty line behind it. -/
def statesText (table : Table Amount) : Except Fault String := do
  let text ← table.text
  .ok (line text)

def compileReport (content : String) (output : Option String) (states : Bool) : Report :=
  match Grammar.ofText content with
  | .error error => failed error.shown
  | .ok grammar =>
      match Table.compile grammar with
      | .error error => failed error.shown
      | .ok table =>
          match if states then statesText table else .ok "" with
          | .error fault => failed (faultShown fault)
          | .ok shown =>
              match output with
              | some path => { output := shown, written := some (path, table.artifact) }
              | none => { output := shown ++ line (summary grammar table) }

/-! ## Answering queries -/

def requestFor (display : Display) (query : String) : Request where
  query := query
  results := display.results
  trees := display.trees
  forest := display.forest || display.forestGraph
  ambiguity := display.ambiguity

def forestShown (display : Display) (table : Table Amount) (forest : Forest) :
    Except Fault String := do
  let text ← if display.forest then forest.text table else .ok ""
  let graph ← if display.forestGraph then forest.graph table else .ok ""
  .ok ((if display.forest then "forest:\n" ++ text ++ "\n\n" else "") ++
    if display.forestGraph then line graph else "")

def answerShown (display : Display) (number : Nat) (answer : Answer) : String :=
  line (number.repr ++ ". " ++ answer.text ++
    if display.costs then " (" ++ costText answer.cost ++ ")" else "") ++
  line ("   " ++ answer.meaning.text) ++
  (if display.objects then line answer.meaning.toObject.pretty else "") ++
  String.join (answer.ambiguous.map fun other =>
    line ("   same meaning: " ++ other.text ++ " (" ++ costText other.cost ++ ")")) ++
  match answer.tree with
  | some tree => tree.text ++ "\n\n"
  | none => ""

def answersShown (display : Display) (answers : List Answer) : String :=
  if answers.isEmpty then line "no legal interpretation"
  else String.join (answers.zipIdx.map fun (answer, index) =>
    answerShown display (index + 1) answer)

def responseShown (display : Display) (table : Table Amount) (response : Response) :
    Except Fault String := do
  let forest ← match response.forest with
    | some forest => forestShown display table forest
    | none => .ok ""
  .ok (forest ++ answersShown display response.answers ++
    if response.stats.truncated then
      line ("(search stopped after " ++ response.stats.expansions.repr ++
        " expansions, there may be more)")
    else "")

/-- What is printed for a query, or why it has no answer. -/
def respond (engine : Engine) (display : Display) (query : String) :
    Except Fault (Except ParseError String) := do
  match ← engine.reply (requestFor display query) false with
  | .error error => .ok (.error error)
  | .ok response => do
      let shown ← responseShown display engine.table response
      .ok (.ok shown)

/-- The report on a query that is given as words. -/
def queryReport (engine : Engine) (display : Display) (query : List String) : Report :=
  match respond engine display (String.intercalate " " query) with
  | .error fault => failed (faultShown fault)
  | .ok (.error error) => failed (parseErrorShown error)
  | .ok (.ok shown) => { output := shown }

/-- What is printed for a line at the prompt. -/
def reply (engine : Engine) (display : Display) (typed : String) : String :=
  let query := Text.trimmed typed
  if query.isEmpty then ""
  else match respond engine display query with
    | .error fault => line (faultShown fault)
    | .ok (.error error) => line error.message
    | .ok (.ok shown) => shown

def parseOutcome (engine : Engine) (display : Display) (query : List String) : Outcome :=
  match if display.states then statesText engine.table else .ok "" with
  | .error fault => .done (failed (faultShown fault))
  | .ok states =>
      if query.isEmpty then .prompt ⟨states, reply engine display⟩
      else
        let report := queryReport engine display query
        .done { report with output := states ++ report.output }

/-! ## Checking queries -/

def mismatchShown (mismatch : Mismatch) : String :=
  line mismatch.query ++ line (match mismatch.found with
    | some found => "  read back as: " ++ found
    | none => "  no result")

def checkReport (engine : Engine) (content : String) : Report :=
  let queries := readQueries content
  match engine.mismatches queries with
  | .error fault => failed (faultShown fault)
  | .ok mismatches =>
      let shown := String.join (mismatches.map mismatchShown)
      if mismatches.isEmpty then
        { output := line ("all " ++ queries.length.repr ++ " queries read back as typed") }
      else {
        output := shown
        failure := some (Text.quoted (mismatches.length.repr ++ " of " ++ queries.length.repr ++
          " queries changed")) }

/-! ## Commands -/

/-- The settings of a source: the ones in its file, with its own grammar and entities. -/
def EngineSource.settings (source : EngineSource) (configured : Settings) : Settings :=
  { configured with
    grammar := some source.grammar
    entities := source.entities <|> configured.entities }

variable {m : Type → Type} [Monad m]

def EngineSource.engine (read : ReadFile m) (source : EngineSource) :
    ExceptT SetupError m Engine := do
  let configured ← match source.config with
    | none => pure {}
    | some path => Settings.load read path
  Engine.load read (source.settings configured)

/-- Goes on with an engine, or reports why there is none. -/
def withEngine (read : ReadFile m) (source : EngineSource) (next : Engine → m Outcome) :
    m Outcome := do
  match ← (source.engine read).run with
  | .error error => pure (.done (failed error.shown))
  | .ok engine => next engine

/-- Goes on with the content of a file, or reports why it cannot be read. -/
def withFile (read : ReadFile m) (path : String) (next : String → m Outcome) : m Outcome := do
  match ← read path with
  | .error error => pure (.done (failed error.shown))
  | .ok content => next content

def Command.outcome (read : ReadFile m) : Command → m Outcome
  | .compile grammar output states =>
      withFile read grammar fun content => pure (.done (compileReport content output states))
  | .parse source display query =>
      withEngine read source fun engine => pure (parseOutcome engine display query)
  | .check source queries =>
      withEngine read source fun engine =>
        withFile read queries fun content => pure (.done (checkReport engine content))

end QueryGrammar.Shell
