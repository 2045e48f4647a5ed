import QueryGrammar.Data.Dictionary
import QueryGrammar.Data.Reach
import QueryGrammar.Decimal.Fixed
import QueryGrammar.Rule.Basic

namespace QueryGrammar

/-! Grammars: the rules of every symbol, in order, and the concepts their meanings are made of. -/

structure Grammar (κ : Type) where
  start : String
  rules : Dictionary (List (Rule κ))
  concepts : Dictionary (Concept κ)
deriving BEq

namespace Grammar

variable {κ : Type}

def rulesOf (grammar : Grammar κ) (symbol : String) : List (Rule κ) :=
  (grammar.rules.get? symbol).getD []

/-- Every rule with its symbol: symbols in order, and the rules of each in theirs. -/
def allRules (grammar : Grammar κ) : List (String × Rule κ) :=
  grammar.rules.entries.flatMap fun (symbol, rules) => rules.map fun rule => (symbol, rule)

def ruleCount (grammar : Grammar κ) : Nat :=
  grammar.allRules.length

/-- From a symbol to every symbol that its rules mention. -/
def mentions (grammar : Grammar κ) : Edges :=
  grammar.allRules.flatMap fun (symbol, rule) => rule.slots.map fun slot => (symbol, slot.symbol)

/-- From a symbol to every symbol that it can stand for alone. -/
def unaryEdges (grammar : Grammar κ) : Edges :=
  grammar.allRules.filterMap fun (symbol, rule) =>
    match rule.slots with
    | [only] => some (symbol, only.symbol)
    | _ => none

def ruleLine (symbol : String) (rule : Rule Amount) : String :=
  symbol ++ " -> " ++ rule.text ++ " (" ++ Decimal.costText rule.cost ++ ")\n"

def text (grammar : Grammar Amount) : String :=
  "//** start: " ++ grammar.start ++ "\n//** rules: " ++ grammar.ruleCount.repr ++ "\n" ++
    String.join (grammar.allRules.map fun (symbol, rule) => ruleLine symbol rule)

end Grammar

end QueryGrammar
