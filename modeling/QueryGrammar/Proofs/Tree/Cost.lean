import Mathlib.Tactic.Ring
import QueryGrammar.Proofs.Costs
import QueryGrammar.Proofs.Tree.Meaning

namespace QueryGrammar.Tree

/-! What trees cost.

Main statement: without rounding, it makes no difference in which order the costs of rules are
added.
-/

mutual

theorem foldlM_rules (table : Table ℚ) : (tree : Tree) → (start : ℚ) →
    tree.rules.foldlM (fun total rule => do
      let cost ← table.costOf rule
      .ok (total + cost)) start = (tree.cost table).map (start + ·)
  | .leaf _ _, start => by
      have none : start + (0 : ℚ) = start := add_zero start
      simp only [rules, cost, List.foldlM_nil, Except.map]
      exact congrArg Except.ok none.symm
  | .branch _ rule _ children, start => by
      rw [rules, cost, List.foldlM_cons]
      cases table.costOf rule with
      | error fault => rfl
      | ok own =>
          have inside := foldlM_rulesAll table children (start + own)
          simp only [bind, Except.bind] at inside ⊢
          rw [inside]
          cases costs table children with
          | error fault => rfl
          | ok others => exact congrArg Except.ok (add_assoc start own others.sum)

theorem foldlM_rulesAll (table : Table ℚ) : (trees : List Tree) → (start : ℚ) →
    (rulesAll trees).foldlM (fun total rule => do
      let cost ← table.costOf rule
      .ok (total + cost)) start = (costs table trees).map (start + ·.sum)
  | [], start => by
      have none : start + (0 : ℚ) = start := add_zero start
      simp only [rulesAll, costs, List.foldlM_nil, Except.map, List.sum_nil]
      exact congrArg Except.ok none.symm
  | first :: rest, start => by
      rw [rulesAll, costs, List.foldlM_append, foldlM_rules table first start]
      cases cost table first with
      | error fault => rfl
      | ok own =>
          have after := foldlM_rulesAll table rest (start + own)
          simp only [bind, Except.bind, Except.map] at after ⊢
          rw [after]
          cases costs table rest with
          | error fault => rfl
          | ok others =>
              simp only [List.sum_cons]
              exact congrArg Except.ok (add_assoc start own others.sum)

end

theorem preorderCost_eq_cost (table : Table ℚ) (tree : Tree) :
    tree.preorderCost table = tree.cost table := by
  rw [preorderCost, foldlM_rules]
  cases tree.cost table with
  | error fault => rfl
  | ok cost => exact congrArg Except.ok (zero_add cost)

end QueryGrammar.Tree
