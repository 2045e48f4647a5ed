import QueryGrammar.Data.Dictionary
import QueryGrammar.Data.Ordered
import QueryGrammar.Rule.Basic

namespace QueryGrammar

/-! Pruning: symbols without rules go, and with them every rule that refers to one, until nothing
else changes. -/

abbrev RuleMap (κ : Type) := Dictionary (List (Rule κ))

namespace RuleMap

variable {κ : Type}

def count (rules : RuleMap κ) : Nat :=
  rules.values.flatten.length

def withoutEmpty (rules : RuleMap κ) : RuleMap κ :=
  rules.filter fun _ symbolRules => !symbolRules.isEmpty

def refersOnlyTo (symbols : List String) (rule : Rule κ) : Bool :=
  rule.slots.all fun slot => search compare slot.symbol symbols

def restrict (symbols : List String) (rules : RuleMap κ) : RuleMap κ :=
  rules.map fun _ symbolRules => symbolRules.filter (refersOnlyTo symbols)

/-- Every round but the last removes a rule. -/
def pruneRounds : Nat → RuleMap κ → RuleMap κ
  | 0, rules => rules
  | fuel + 1, rules =>
      let present := rules.withoutEmpty
      let kept := present.restrict present.keys
      if kept.count == present.count then kept else pruneRounds fuel kept

def prune (rules : RuleMap κ) : RuleMap κ :=
  pruneRounds (rules.count + 1) rules

end RuleMap

end QueryGrammar
