import QueryGrammar.Artifact.Table
import QueryGrammar.Engine.Basic
import QueryGrammar.Engine.Error
import QueryGrammar.Files.Path
import QueryGrammar.Grammar.Notation.Statement
import QueryGrammar.Toml.Reader

namespace QueryGrammar

/-! Setting up engines from files.

Everything here is told how to read files, so that it works on the files of a system as well as on
a file tree.
-/

/-! ## Settings -/

namespace SearchSettings

def natOf? : Toml → Option Nat
  | .integer (.ofNat n) => some n
  | _ => none

/-- A setting that is missing has its usual value. -/
def natOr (value : Nat) : Option Toml → Option Nat
  | none => some value
  | some toml => natOf? toml

def ofValues? (results maxExpansions timeLimit : Option Toml) : Option SearchSettings := do
  let usual : SearchSettings := {}
  let results ← natOr usual.results results
  let maxExpansions ← natOr usual.maxExpansions maxExpansions
  match timeLimit with
  | none => some { results, maxExpansions }
  | some toml => do
      let milliseconds ← natOf? toml
      some { results, maxExpansions, timeLimit := some milliseconds }

/-- Settings by name, or in order. A date has none of them. -/
def ofToml? : Toml → Option SearchSettings
  | .table _ entries =>
      ofValues? (Toml.valueOf? "k" entries) (Toml.valueOf? "max_expansions" entries)
        (Toml.valueOf? "timeout_ms" entries)
  | .array items => ofValues? items[0]? items[1]? items[2]?
  | .series tables => ofValues? tables[0]? tables[1]? tables[2]?
  | .date => some {}
  | _ => none

end SearchSettings

namespace Settings

def pathOf? : Option Toml → Option (Option String)
  | none => some none
  | some (.string path) => some (some path)
  | some _ => none

/-- Keys that are no settings do not count. -/
def ofToml? : Toml → Option Settings
  | .table _ entries => do
      let search ← match Toml.valueOf? "search" entries with
        | none => some {}
        | some toml => SearchSettings.ofToml? toml
      let grammar ← pathOf? (Toml.valueOf? "grammar" entries)
      let entities ← pathOf? (Toml.valueOf? "entities" entries)
      some { search, grammar, entities }
  | _ => none

def ofText? (content : String) : Option Settings :=
  match Toml.read? content with
  | some document => ofToml? document
  | none => none

/-- Paths in settings are taken from the directory of the file that they stand in. -/
def within (folder : String) (settings : Settings) : Settings :=
  { settings with
    grammar := settings.grammar.map (Path.join folder)
    entities := settings.entities.map (Path.join folder) }

end Settings

/-! ## Loading -/

variable {m : Type → Type} [Monad m]

def loadText (read : ReadFile m) (path : String) : ExceptT SetupError m String :=
  ExceptT.mk do
    match ← read path with
    | .ok content => pure (.ok content)
    | .error error => pure (.error (.badFile error))

def Settings.load (read : ReadFile m) (path : String) : ExceptT SetupError m Settings := do
  let content ← loadText read path
  match Settings.ofText? content with
  | some settings => pure (settings.within (Path.folder path))
  | none => throw .badSettings

/-- The table that a text stands for: an artifact, or the notation of a grammar. -/
def Table.ofContent (isArtifact : Bool) (content : String) : Except SetupError (Table Amount) :=
  if isArtifact then (Table.ofArtifact content).mapError .ofArtifactError
  else do
    let grammar ← (Grammar.ofText content).mapError .badGrammar
    (Table.compile grammar).mapError .badGrammar

/-- Files whose names end in `.json` are artifacts. -/
def Table.load (read : ReadFile m) (path : String) : ExceptT SetupError m (Table Amount) := do
  let content ← loadText read path
  ofExcept (Table.ofContent (Path.extension? path == some "json") content)

def Gazetteer.load (read : ReadFile m) (path : String) : ExceptT SetupError m Gazetteer := do
  let content ← loadText read path
  ofExcept ((Gazetteer.ofArtifact content).mapError .badEntities)

/-- Sets up an engine: its table first, then its entities. -/
def Engine.load (read : ReadFile m) (settings : Settings) : ExceptT SetupError m Engine := do
  match settings.grammar with
  | none => throw (.badGrammar (.badNotation .noGrammar))
  | some path => do
      let table ← Table.load read path
      let gazetteer ← match settings.entities with
        | none => pure .empty
        | some path => Gazetteer.load read path
      pure { table, gazetteer, search := settings.search }

end QueryGrammar
