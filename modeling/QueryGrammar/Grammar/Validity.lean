import QueryGrammar.Data.Check
import QueryGrammar.Grammar.Basic
import QueryGrammar.Grammar.Error
import QueryGrammar.Text.Blank

namespace QueryGrammar

/-! What every grammar must satisfy before it can be compiled.

Rules are checked one by one; then every symbol must be reachable from the start, and no symbol may
stand for itself through rules with a single symbol.
-/

/-- A literal without any word. -/
def Production.isBlankLiteral : Production → Bool
  | .literal text => Text.isBlankText text
  | .symbols _ => false

namespace Rule

variable {κ : Type} [Cost κ]

def isBraced (text : String) : Bool :=
  text.toList.head? == some '\x7b' && text.toList.getLast? == some '\x7d'

def isInflectionless : Option Wording → Bool
  | some (.inflected inflections) => inflections.isEmpty
  | _ => false

/-- What keeps the role and the wording of a rule from fitting its production. -/
def misfit? (rule : Rule κ) : Option RuleFlaw :=
  match rule.production with
  | .symbols _ => if rule.role = .plain then none else some .roleOnSymbols
  | .literal text =>
      if rule.role = .substitution ∧ rule.wording.isNone then some .uncorrectedSubstitution
      else if rule.role = .placeholder ∧ !isBraced text then some .badPlaceholder
      else if isInflectionless rule.wording then some .emptyInflections
      else none

def flaw? (rule : Rule κ) : Option RuleFlaw :=
  if !Cost.isNonnegative rule.cost || !Cost.isFinite rule.cost then some .badCost
  else if rule.insertionCost.any (!Cost.isNonnegative ·) then some .badInsertionCost
  else if rule.isLiteral && rule.transpositionCost.isSome then some .transposedLiteral
  else if rule.transpositionCost.isSome && rule.slots.length != 2 then some .transposedUnary
  else if !rule.isLiteral && rule.wording.isSome then some .wordedSymbols
  else rule.misfit?

/-- Checks a rule by itself. -/
def check (symbol : String) (rule : Rule κ) : Except GrammarError Unit :=
  match rule.production with
  | .symbols [] => .error (.emptyProduction symbol)
  | .symbols (_ :: _ :: _ :: _) => .error (.longProduction symbol rule.production.text)
  | production =>
      if production.isBlankLiteral then .error (.emptyProduction symbol)
      else match rule.flaw? with
        | some flaw => .error (.malformedRule symbol flaw)
        | none => .ok ()

end Rule

namespace Grammar

variable {κ : Type} [Cost κ]

def isDefined (grammar : Grammar κ) (symbol : String) : Bool :=
  !(grammar.rulesOf symbol).isEmpty

/-- Base rules of one symbol have different productions. -/
def repeats (earlier : List (Rule κ)) (rule : Rule κ) : Bool :=
  rule.isBase &&
    earlier.any fun other => other.isBase && other.production.sameAs rule.production

def checkRule (grammar : Grammar κ) (symbol : String) (earlier : List (Rule κ))
    (rule : Rule κ) : Except GrammarError Unit := do
  rule.check symbol
  checkAll (fun slot =>
    require (grammar.isDefined slot.symbol) (.undefinedSymbol slot.symbol symbol)) rule.slots
  require (!repeats earlier rule) (.duplicateRule symbol rule.production.text)

/-- Checks the rules of a symbol, each against those before it. -/
def checkRules (grammar : Grammar κ) (symbol : String) :
    List (Rule κ) → List (Rule κ) → Except GrammarError Unit
  | _, [] => .ok ()
  | earlier, rule :: rest => do
      grammar.checkRule symbol earlier rule
      grammar.checkRules symbol (earlier ++ [rule]) rest

def checkSymbol (grammar : Grammar κ) (entry : String × List (Rule κ)) :
    Except GrammarError Unit := do
  require (!entry.2.isEmpty) (.undefinedSymbol entry.1 entry.1)
  grammar.checkRules entry.1 [] entry.2

def checkReachable (grammar : Grammar κ) : Except GrammarError Unit :=
  let reached := grammar.mentions.reachable grammar.start
  match grammar.rules.keys.find? fun symbol => !reached.contains symbol with
  | some symbol => .error (.unreachableSymbol symbol)
  | none => .ok ()

def checkUnaryCycles (grammar : Grammar κ) : Except GrammarError Unit :=
  let edges := grammar.unaryEdges
  match grammar.rules.keys.find? fun symbol => edges.reaches symbol symbol with
  | some symbol => .error (.unaryCycle symbol)
  | none => .ok ()

def validate (grammar : Grammar κ) : Except GrammarError Unit := do
  require (grammar.isDefined grammar.start) (.missingStart grammar.start)
  checkAll grammar.checkSymbol grammar.rules.entries
  grammar.checkReachable
  grammar.checkUnaryCycles

end Grammar

end QueryGrammar
