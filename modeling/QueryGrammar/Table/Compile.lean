import QueryGrammar.Edits.Derivation
import QueryGrammar.Grammar.Validity
import QueryGrammar.Table.Automaton
import QueryGrammar.Text.Case

namespace QueryGrammar

/-! Compiling grammars. -/

namespace Table

variable {κ : Type} [Cost κ]

def idOf (symbols : List String) (symbol usedBy : String) : Except GrammarError Nat :=
  match symbols.findIdx? (· == symbol) with
  | some id => .ok id
  | none => .error (.undefinedSymbol symbol usedBy)

def indexRule (symbols : List String) (entry : String × Rule κ) :
    Except GrammarError (IndexedRule κ) := do
  let symbol ← idOf symbols entry.1 entry.1
  let slots ← mapAll (fun slot => idOf symbols slot.symbol entry.1) entry.2.slots
  .ok ⟨symbol, slots, entry.2⟩

/-- Every literal in its normalized form, with the numbers of its rules. -/
def literalIndex (rules : List (Rule κ)) : Dictionary (List Nat) :=
  rules.zipIdx.foldl (fun index (rule, id) =>
    match rule.production with
    | .literal text => index.alter (Text.normalize text) fun ids => ids.getD [] ++ [id]
    | .symbols _ => index) {}

def longestOf (literals : Dictionary (List Nat)) : Nat :=
  (literals.keys.map fun literal => (Text.wordsOf literal).length).foldl max 0

/-- Compiles a grammar as it is. -/
def build (grammar : Grammar κ) : Except GrammarError (Table κ) := do
  let symbols := grammar.rules.keys
  match symbols.findIdx? (· == grammar.start) with
  | none => .error (.missingStart grammar.start)
  | some start =>
      let rules ← mapAll (indexRule symbols) grammar.allRules
      let literals := literalIndex (grammar.allRules.map (·.2))
      let rules := rules.toArray
      .ok {
        start
        symbols := symbols.toArray
        rules
        literals
        states := Automaton.states (.ofRules start symbols.length rules)
        longestLiteral := longestOf literals }

/-- Compiles a grammar with the rules for edits of its input. -/
def compile (grammar : Grammar κ) : Except GrammarError (Table κ) := do
  grammar.validate
  let expanded ← grammar.withEdits
  build expanded

end Table

end QueryGrammar
