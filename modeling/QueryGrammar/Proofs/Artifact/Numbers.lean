import QueryGrammar.Artifact.Table
import QueryGrammar.Proofs.Edits.Deduplicated

namespace QueryGrammar

open Decimal

/-! The numbers in grammars and tables: amounts, which may be fractions or infinite, and counts. -/

variable {κ : Type}

def ConceptKind.counts : ConceptKind → List Nat
  | .function fewest most _ _ => [fewest, most]
  | .argument => []

namespace Rule

def concepts (rule : Rule κ) : List (Concept κ) :=
  Meaning.conceptsAll rule.meanings

def amounts (rule : Rule κ) : List κ :=
  rule.cost :: (rule.insertionCost.toList ++ rule.transpositionCost.toList ++
    rule.concepts.map Concept.cost)

def counts (rule : Rule κ) : List Nat :=
  rule.insertion.toList.map Insertion.index ++ rule.concepts.flatMap (·.kind.counts)

end Rule

namespace Grammar

def amounts (grammar : Grammar κ) : List κ :=
  grammar.allRules.flatMap (·.2.amounts) ++ grammar.concepts.values.map Concept.cost

def counts (grammar : Grammar κ) : List Nat :=
  grammar.allRules.flatMap (·.2.counts) ++ grammar.concepts.values.flatMap (·.kind.counts)

end Grammar

def IndexedRule.counts (rule : IndexedRule κ) : List Nat :=
  rule.symbol :: rule.slots ++ rule.rule.counts

def State.counts (state : State) : List Nat :=
  state.reductions ++ state.shifts.toList.flatMap fun (symbol, target) => [symbol, target]

namespace Table

def amounts (table : Table κ) : List κ :=
  table.rules.toList.flatMap (·.rule.amounts)

def counts (table : Table κ) : List Nat :=
  table.start :: table.longestLiteral :: (table.rules.toList.flatMap IndexedRule.counts ++
    table.literals.values.flatten ++ table.states.toList.flatMap State.counts)

end Table

/-- A finite amount is the number nearest to its digits. -/
def Amount.IsExact : Amount → Prop
  | .known x => ∀ numeral ∈ numeralOf? x, numeral.toFloat = x
  | .undefined _ => True

instance : (amount : Amount) → Decidable amount.IsExact
  | .known x => inferInstanceAs (Decidable (∀ numeral ∈ numeralOf? x, numeral.toFloat = x))
  | .undefined _ => .isTrue trivial

/-- Numbers that can be told from their digits: amounts are finite and are read back exactly, and
counts are kept in 64 bits. -/
structure Faithful (amounts : List Amount) (counts : List Nat) : Prop where
  finite : ∀ amount ∈ amounts, amount.isFinite = true
  exact : ∀ amount ∈ amounts, amount.IsExact
  word : ∀ count ∈ counts, count < Nat.pow 2 64

instance {amounts : List Amount} {counts : List Nat} : Decidable (Faithful amounts counts) :=
  decidable_of_iff ((∀ amount ∈ amounts, amount.isFinite = true) ∧
      (∀ amount ∈ amounts, amount.IsExact) ∧ ∀ count ∈ counts, count < Nat.pow 2 64)
    ⟨fun ⟨finite, exact, word⟩ => ⟨finite, exact, word⟩,
      fun ⟨finite, exact, word⟩ => ⟨finite, exact, word⟩⟩

theorem Faithful.mono {amounts few : List Amount} {counts fewCounts : List Nat}
    (faithful : Faithful amounts counts) (among : few ⊆ amounts)
    (amongCounts : fewCounts ⊆ counts) : Faithful few fewCounts where
  finite amount member := faithful.finite amount (among member)
  exact amount member := faithful.exact amount (among member)
  word count member := faithful.word count (amongCounts member)

end QueryGrammar
