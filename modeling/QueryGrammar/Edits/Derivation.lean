import QueryGrammar.Edits.Pruning
import QueryGrammar.Edits.Recipe
import QueryGrammar.Grammar.Error

namespace QueryGrammar

/-! Rules that tolerate edits of the input.

`X -> A B` gains `X -> A` where `B` can be produced from nothing, and `X -> B` where `A` can; where
it has a transposition cost, it gains `X -> B A`.  Rules on the empty literal are thereby folded
away and removed.
-/

namespace Edits

variable {κ : Type} [Cost κ]

/-- What two rules have in common that match the same input and mean the same thing. -/
structure Key where
  production : List String
  meaning : Option String
  inserted : Option String
  transposed : Bool
deriving DecidableEq

def Key.ofRule (rule : Rule κ) : Key where
  production := match rule.production with
    | .literal text => [text]
    | .symbols slots => slots.map Slot.symbol
  meaning := rule.meaning.map Meaning.text
  inserted := (rule.insertion.bind Insertion.meaning).map Meaning.text
  transposed := rule.transposed

/-- Adds a rule at the end unless one with its key is there, of which the cheaper is kept in place.
Tells whether the rule is new. -/
def offerWith (key : Key) (rule : Rule κ) : List (Rule κ) → List (Rule κ) × Bool
  | [] => ([rule], true)
  | first :: rest =>
      if Key.ofRule first = key then
        ((if Cost.less rule.cost first.cost then rule else first) :: rest, false)
      else
        let (others, isNew) := offerWith key rule rest
        (first :: others, isNew)

def offer (rule : Rule κ) (rules : List (Rule κ)) : List (Rule κ) × Bool :=
  offerWith (Key.ofRule rule) rule rules

/-- A derived rule is like its base but for the symbols and the cost, and is edited no further. -/
def derived (base : Rule κ) (slots : List Slot) (cost : κ) : Rule κ :=
  { base with
    production := .symbols slots
    cost
    insertionCost := none
    transpositionCost := none
    insertion := none
    transposed := false }

/-- A binary rule with one symbol produced from nothing. -/
def omitting (base : Rule κ) (index : Nat) (kept omitted : Slot) (recipe : Recipe κ) : Rule κ :=
  { derived base [kept] (base.cost + recipe.cost) with
    insertion := some {
      index
      text := Recipe.withForm omitted.form recipe.text
      meaning := recipe.meaning
      person := recipe.person } }

/-- A binary rule with its symbols swapped. -/
def swapping (base : Rule κ) (first second : Slot) (penalty : κ) : Rule κ :=
  { derived base [second, first] (base.cost + penalty) with transposed := true }

/-- The rules of every symbol so far, and what each symbol can stand for alone. -/
structure State (κ : Type) where
  rules : RuleMap κ
  unary : Edges

/-- Offers a rule to its symbol. -/
def State.offer (state : State κ) (symbol : String) (rule : Rule κ) : State κ × Bool :=
  let (rules, isNew) := Edits.offer rule ((state.rules.get? symbol).getD [])
  ({ state with rules := state.rules.insert symbol rules }, isNew)

/-- Offers the rule that keeps one of two symbols, unless a symbol would then stand for itself. -/
def State.offerOmission (recipes : Recipes κ) (symbol : String) (base : Rule κ)
    (index : Nat) (kept omitted : Slot) (state : State κ) : State κ :=
  match recipes.get? omitted.symbol with
  | none => state
  | some recipe =>
      if kept.symbol == symbol || state.unary.reaches kept.symbol symbol then state
      else
        let (state, isNew) := state.offer symbol (omitting base index kept omitted recipe)
        if isNew then { state with unary := state.unary ++ [(symbol, kept.symbol)] } else state

def State.offerEdits (recipes : Recipes κ) (symbol : String) (base : Rule κ)
    (first second : Slot) (state : State κ) : State κ :=
  let state :=
    if base.noInsert then state
    else (state.offerOmission recipes symbol base 1 first second).offerOmission recipes symbol
      base 0 second first
  match base.transpositionCost with
  | none => state
  | some penalty => (state.offer symbol (swapping base first second penalty)).1

/-- Takes up a base rule and what is derived from it. -/
def State.take (recipes : Recipes κ) (state : State κ) (symbol : String) (rule : Rule κ) :
    State κ :=
  if rule.production.isEmptyLiteral then
    { state with rules := state.rules.alter symbol (·.getD []) }
  else
    let (state, _) := state.offer symbol rule
    match rule.slots with
    | [first, second] => state.offerEdits recipes symbol rule first second
    | _ => state

/-- All rules, given and derived, before pruning. -/
def collect (grammar : Grammar κ) : State κ :=
  let recipes := grammar.recipes
  grammar.allRules.foldl (fun state (symbol, rule) => state.take recipes symbol rule)
    ⟨{}, grammar.unaryEdges⟩

end Edits

/-- The grammar with rules for edits of its input, and without rules on the empty literal. -/
def Grammar.withEdits {κ : Type} [Cost κ] (grammar : Grammar κ) :
    Except GrammarError (Grammar κ) :=
  let rules := RuleMap.prune (Edits.collect grammar).rules
  if ((rules.get? grammar.start).getD []).isEmpty then .error (.missingStart grammar.start)
  else .ok { grammar with rules }

end QueryGrammar
