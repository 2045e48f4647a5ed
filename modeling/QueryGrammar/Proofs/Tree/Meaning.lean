import QueryGrammar.Meaning.Interpretation
import QueryGrammar.Search.Candidate

namespace QueryGrammar

/-! What a derivation tree means and costs, by recursion on the tree. -/

namespace Tree

mutual

/-- The rules of a tree in pre-order. -/
def rules : Tree → List Nat
  | .leaf _ _ => []
  | .branch _ rule _ children => rule :: rulesAll children

def rulesAll : List Tree → List Nat
  | [] => []
  | first :: rest => rules first ++ rulesAll rest

end

variable {κ : Type} [Cost κ]

/-- The costs of all rules added in pre-order, beginning with nothing. -/
def preorderCost (table : Table κ) (tree : Tree) : Except Fault κ :=
  tree.rules.foldlM (fun total rule => do
    let cost ← table.costOf rule
    .ok (total + cost)) 0

mutual

/-- The meanings that a tree contributes to the rule around it. -/
def yield? (table : Table κ) (forest : Forest) : Tree → Option (List (Meaning κ))
  | .leaf _ _ => none
  | .branch _ rule _ [.leaf found _] =>
      match table.rules[rule]?, forest.found[found]? with
      | some entry, some hit => Search.literalMeanings entry.rule hit.entity
      | _, _ => none
  | .branch _ rule _ children =>
      match table.rules[rule]?, yields? table forest children with
      | some entry, some args =>
          let inserted := (entry.rule.insertion.bind Insertion.meaning).toList
          Frame.close? ⟨entry.rule.meaning, inserted ++ args⟩
      | _, _ => none

def yields? (table : Table κ) (forest : Forest) : List Tree → Option (List (Meaning κ))
  | [] => some []
  | first :: rest =>
      match yield? table forest first, yields? table forest rest with
      | some own, some others => some (own ++ others)
      | _, _ => none

end

variable {table : Table κ} {forest : Forest}

/-- Children that are no leaves contribute to the rule what they contribute alone. -/
theorem yield?_branch {node rule : Nat} {entry : IndexedRule κ} {span : Span} {parts : List Tree}
    (known : table.rules[rule]? = some entry)
    (branches : ∀ part ∈ parts, ∃ id rule span children, part = .branch id rule span children) :
    (branch node rule span parts).yield? table forest =
      (yields? table forest parts).bind fun args =>
        Frame.close? ⟨entry.rule.meaning,
          (entry.rule.insertion.bind Insertion.meaning).toList ++ args⟩ := by
  rw [yield?]
  · rw [known]
    cases yields? table forest parts <;> rfl
  · intro found inner given
    subst given
    obtain ⟨_, _, _, _, leaf⟩ := branches _ (List.mem_singleton.2 rfl)
    cases leaf

/-- The meaning of a whole tree. -/
def interpretation? (table : Table κ) (forest : Forest) (tree : Tree) :
    Option (Interpretation κ) :=
  match tree.yield? table forest with
  | some args => (Frame.close? ⟨none, args⟩).bind Interpretation.ofRoots?
  | none => none

end Tree

end QueryGrammar
