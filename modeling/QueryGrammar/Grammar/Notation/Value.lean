import QueryGrammar.Text.Quoted

namespace QueryGrammar.Notation

/-! What options of the grammar notation are set to. -/

/-- A meaning as it is written: a name, perhaps with arguments in brackets. -/
inductive MeaningExpr where
  | apply (name : String) (args : List MeaningExpr)

inductive Value where
  /-- One or more words with bars between them. -/
  | words (words : List String)
  /-- Keys and words in braces. -/
  | table (pairs : List (String × String))
  | meaning (expr : MeaningExpr)

abbrev Options := List (String × Value)

mutual

/-- A written meaning as messages show it. -/
def MeaningExpr.shown : MeaningExpr → String
  | .apply name args =>
      "SemExpr \x7b name: " ++ Text.quoted name ++ ", args: [" ++
        String.intercalate ", " (MeaningExpr.allShown args) ++ "] \x7d"

def MeaningExpr.allShown : List MeaningExpr → List String
  | [] => []
  | first :: rest => first.shown :: MeaningExpr.allShown rest

end

/-- A value as messages show it. -/
def Value.shown : Value → String
  | .words list => "Atoms([" ++ String.intercalate ", " (list.map Text.quoted) ++ "])"
  | .table pairs =>
      "Table([" ++
        String.intercalate ", " (pairs.map fun (key, value) =>
          "(" ++ Text.quoted key ++ ", " ++ Text.quoted value ++ ")") ++
        "])"
  | .meaning expr => "Sem(" ++ expr.shown ++ ")"

end QueryGrammar.Notation
