import QueryGrammar.Grammar.Notation.Value

namespace QueryGrammar

/-! Why a grammar is refused. -/

/-- Why a text is not grammar notation. -/
inductive NotationError where
  /-- Something else was expected where the text goes on with `context`. -/
  | expected (what : String) (context : String)
  | unknownDirective (name : String) (context : String)
  | notWords (key : String) (value : Notation.Value)
  | notSingle (key : String)
  | missingOption (key : String)
  | notNumber (key : String) (word : String)
  | notBoolean (key : String) (word : String)
  | notMeaning (value : Notation.Value)
  | notWording (value : Notation.Value)
  | unknownOption (key : String) (subject : String)
  | unknownForm (word : String)
  | unknownPerson (word : String)
  | unknownRole (word : String)
  | unknownInflection (key : String)
  | noRules
  | noGrammar

/-- What is wrong with a rule. -/
inductive RuleFlaw where
  | badCost
  | badInsertionCost
  | transposedLiteral
  | transposedUnary
  | wordedSymbols
  | roleOnSymbols
  | uncorrectedSubstitution
  | badPlaceholder
  | emptyInflections
  | wordWithoutForms
  | wordAcceptsEmpty
  | insertedOptionalWord
  | verbWithoutInflection
  | literalAmongSymbols (literal : String)
  | badArity

inductive GrammarError where
  | duplicateSymbol (symbol : String)
  | duplicateConcept (name : String)
  | duplicateRule (symbol : String) (production : String)
  | longProduction (symbol : String) (production : String)
  | emptyProduction (symbol : String)
  | undefinedSymbol (symbol : String) (usedBy : String)
  | unreachableSymbol (symbol : String)
  | missingStart (symbol : String)
  | unknownConcept (name : String)
  | unaryCycle (symbol : String)
  | malformedRule (symbol : String) (flaw : RuleFlaw)
  | badNotation (error : NotationError)

namespace NotationError

def message : NotationError → String
  | expected what context => "expected " ++ what ++ " at \"" ++ context ++ "\""
  | unknownDirective name context => "unknown directive @" ++ name ++ " at \"" ++ context ++ "\""
  | notWords key value => key ++ ": expected words, got " ++ value.shown
  | notSingle key => key ++ ": expected a single value"
  | missingOption key => "missing required option " ++ key
  | notNumber key word => key ++ ": " ++ word ++ " is not a number"
  | notBoolean key word => key ++ ": " ++ word ++ " is not a boolean"
  | notMeaning value => "sem: unexpected " ++ value.shown
  | notWording value => "text: unexpected " ++ value.shown
  | unknownOption key subject => "unknown option " ++ key ++ " on " ++ subject
  | unknownForm word => "unknown grammatical form " ++ word
  | unknownPerson word => "unknown person-number " ++ word
  | unknownRole word => "unknown rule kind " ++ word
  | unknownInflection key => "unknown text form " ++ key
  | noRules => "empty ruleset"
  | noGrammar => "no grammar configured"

end NotationError

namespace RuleFlaw

def message : RuleFlaw → String
  | badCost => "cost must be a finite nonnegative number"
  | badInsertionCost => "insertion cost must be nonnegative"
  | transposedLiteral => "terminal rules cannot be transposed"
  | transposedUnary => "only binary rules can be transposed"
  | wordedSymbols => "nonterminal rules cannot have text"
  | roleOnSymbols => "only terminal rules can be substitutions, stop words or placeholders"
  | uncorrectedSubstitution => "substitution is missing its corrected text"
  | badPlaceholder => "placeholder literals look like \x7bcategory\x7d"
  | emptyInflections => "conjugation table has no forms"
  | wordWithoutForms => "word has no accepted forms"
  | wordAcceptsEmpty => "only stop words and optional words can accept <empty>"
  | insertedOptionalWord => "optional words cannot have insertion costs"
  | verbWithoutInflection => "verb is missing an inflection"
  | literalAmongSymbols literal => "literal " ++ literal ++ " in a nonterminal rule"
  | badArity => "semantic arguments violate its arity"

end RuleFlaw

namespace GrammarError

def message : GrammarError → String
  | duplicateSymbol symbol => "duplicate symbol: " ++ symbol
  | duplicateConcept name => "duplicate semantic: " ++ name
  | duplicateRule symbol production => "duplicate rule: " ++ symbol ++ " -> " ++ production
  | longProduction symbol production =>
      "rule " ++ symbol ++ " -> " ++ production ++ " has more than 2 RHS symbols"
  | emptyProduction symbol => "rule on " ++ symbol ++ " has an empty RHS"
  | undefinedSymbol symbol usedBy =>
      "symbol " ++ symbol ++ " is used in a rule of " ++ usedBy ++ " but has no rules"
  | unreachableSymbol symbol => "symbol " ++ symbol ++ " is unreachable from the start symbol"
  | missingStart symbol => "missing start symbol: " ++ symbol
  | unknownConcept name => "unknown semantic: " ++ name
  | unaryCycle symbol => "unary rule cycle through " ++ symbol
  | malformedRule symbol flaw => "malformed rule on " ++ symbol ++ ": " ++ flaw.message
  | badNotation error => "grammar syntax: " ++ error.message

/-- The name of the cause. -/
def label : GrammarError → String
  | duplicateSymbol _ => "DuplicateSymbol"
  | duplicateConcept _ => "DuplicateSemantic"
  | duplicateRule _ _ => "DuplicateRule"
  | longProduction _ _ => "RhsTooLong"
  | emptyProduction _ => "EmptyRhs"
  | undefinedSymbol _ _ => "UndefinedSymbol"
  | unreachableSymbol _ => "UnreachableSymbol"
  | missingStart _ => "MissingStart"
  | unknownConcept _ => "UnknownSemantic"
  | unaryCycle _ => "UnaryCycle"
  | malformedRule _ _ => "MalformedRule"
  | badNotation _ => "Syntax"

def fieldsShown (fields : List (String × String)) : String :=
  " \x7b " ++
    String.intercalate ", " (fields.map fun (name, value) => name ++ ": " ++ Text.quoted value) ++
    " \x7d"

def valueShown (value : String) : String :=
  "(" ++ Text.quoted value ++ ")"

/-- What the cause is about, by name or alone. -/
def detailShown : GrammarError → String
  | duplicateSymbol symbol => valueShown symbol
  | duplicateConcept name => valueShown name
  | duplicateRule symbol production => fieldsShown [("lhs", symbol), ("rhs", production)]
  | longProduction symbol production => fieldsShown [("lhs", symbol), ("rhs", production)]
  | emptyProduction symbol => valueShown symbol
  | undefinedSymbol symbol usedBy => fieldsShown [("symbol", symbol), ("used_by", usedBy)]
  | unreachableSymbol symbol => valueShown symbol
  | missingStart symbol => valueShown symbol
  | unknownConcept name => valueShown name
  | unaryCycle symbol => valueShown symbol
  | malformedRule symbol flaw => fieldsShown [("symbol", symbol), ("reason", flaw.message)]
  | badNotation error => valueShown error.message

/-- The error as a failing command shows it. -/
def shown (error : GrammarError) : String :=
  error.label ++ error.detailShown

end GrammarError

end QueryGrammar
