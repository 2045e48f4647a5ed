import QueryGrammar.Proofs.Grammar.Rules

namespace QueryGrammar

/-! Derivation trees of a grammar, apart from any input. -/

inductive Expansion (κ : Type) where
  | literal (symbol : String) (rule : Rule κ)
  | single (symbol : String) (rule : Rule κ) (part : Expansion κ)
  | pair (symbol : String) (rule : Rule κ) (left right : Expansion κ)

variable {κ : Type}

namespace Expansion

def symbol : Expansion κ → String
  | .literal symbol _ => symbol
  | .single symbol _ _ => symbol
  | .pair symbol _ _ _ => symbol

/-- All rules, those above before those below. -/
def rules : Expansion κ → List (Rule κ)
  | .literal _ rule => [rule]
  | .single _ rule part => rule :: part.rules
  | .pair _ rule left right => rule :: (left.rules ++ right.rules)

/-- The rules on literals, in the order of the input. -/
def literals : Expansion κ → List (Rule κ)
  | .literal _ rule => [rule]
  | .single _ _ part => part.literals
  | .pair _ _ left right => left.literals ++ right.literals

/-- What all rules cost. -/
def cost [Add κ] : Expansion κ → κ
  | .literal _ rule => rule.cost
  | .single _ rule part => rule.cost + part.cost
  | .pair _ rule left right => rule.cost + left.cost + right.cost

end Expansion

namespace Grammar

/-- The expansions that the rules of a grammar allow. -/
inductive Admits (grammar : Grammar κ) : Expansion κ → Prop
  | literal {symbol : String} {rule : Rule κ} : rule ∈ grammar.rulesOf symbol →
      rule.isLiteral = true → grammar.Admits (.literal symbol rule)
  | single {symbol : String} {rule : Rule κ} {slot : Slot} {part : Expansion κ} :
      rule ∈ grammar.rulesOf symbol → rule.slots = [slot] → part.symbol = slot.symbol →
      grammar.Admits part → grammar.Admits (.single symbol rule part)
  | pair {symbol : String} {rule : Rule κ} {first second : Slot} {left right : Expansion κ} :
      rule ∈ grammar.rulesOf symbol → rule.slots = [first, second] →
      left.symbol = first.symbol → right.symbol = second.symbol →
      grammar.Admits left → grammar.Admits right → grammar.Admits (.pair symbol rule left right)

variable {grammar other : Grammar κ} {expansion : Expansion κ}

/-- Only the rules of an expansion matter. -/
theorem Admits.mono (admits : grammar.Admits expansion)
    (rules : ∀ symbol, ∀ rule ∈ grammar.rulesOf symbol, rule ∈ other.rulesOf symbol) :
    other.Admits expansion := by
  induction admits with
  | literal member isLiteral => exact .literal (rules _ _ member) isLiteral
  | single member slots same _ ih => exact .single (rules _ _ member) slots same ih
  | pair member slots first second _ _ ihLeft ihRight =>
      exact .pair (rules _ _ member) slots first second ihLeft ihRight

end Grammar

end QueryGrammar
