import QueryGrammar.Artifact.Error
import QueryGrammar.Files.Basic
import QueryGrammar.Input.Gazetteer

namespace QueryGrammar

/-! Why an engine cannot be set up. -/

inductive SetupError where
  | badGrammar (error : GrammarError)
  | badTable (flaw : TableFlaw)
  /-- A grammar or a table is no artifact at all. -/
  | badArtifact
  | badEntities (error : GazetteerError)
  | badSettings
  | badFile (error : FileError)

namespace SetupError

def ofArtifactError : ArtifactError → SetupError
  | .unreadable => .badArtifact
  | .badGrammar error => .badGrammar error
  | .badTable flaw => .badTable flaw

/-- The name of the cause. -/
def label : SetupError → String
  | badGrammar error => error.label
  | badTable _ => "MalformedTable"
  | badArtifact => "Json"
  | badEntities _ => "MalformedEntities"
  | badSettings => "Toml"
  | badFile _ => "Io"

/-- What there is to say about the cause. Of text that cannot be read at all there is nothing. -/
def message : SetupError → Option String
  | badGrammar error => some error.message
  | badTable flaw => some ("malformed state table: " ++ flaw.message)
  | badArtifact => none
  | badEntities .unreadable => none
  | badEntities (.blank category entity) =>
      some ("malformed entity list: " ++ GazetteerError.problem category entity)
  | badSettings => none
  | badFile error => some error.kind

/-- What is shown in brackets behind the name of the cause. -/
def detail : SetupError → String
  | badGrammar error => error.shown
  | badTable flaw => Text.quoted flaw.message
  | badArtifact => Text.quoted "unreadable artifact"
  | badEntities .unreadable => Text.quoted "unreadable entity list"
  | badEntities (.blank category entity) => Text.quoted (GazetteerError.problem category entity)
  | badSettings => Text.quoted "unreadable settings"
  | badFile error => error.shown

/-- The error as a failing command shows it. -/
def shown (error : SetupError) : String :=
  (match error with
    | badGrammar _ => "Grammar"
    | other => other.label) ++ "(" ++ error.detail ++ ")"

end SetupError

end QueryGrammar
