import QueryGrammar.Grammar.Error
import QueryGrammar.Table.Basic

namespace QueryGrammar

/-- Why an artifact is refused. -/
inductive ArtifactError where
  | unreadable
  | badGrammar (error : GrammarError)
  | badTable (flaw : TableFlaw)

end QueryGrammar
