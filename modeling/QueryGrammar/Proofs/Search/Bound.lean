import QueryGrammar.Proofs.Forest.Least
import QueryGrammar.Proofs.Search.Optimal

namespace QueryGrammar

/-! What is still to come of a candidate.

Main statement: without rounding, the bound of a candidate is what the cheapest tree costs that
begins with its choices.
-/

/-- What trees cost that begin with some choices. -/
def Forest.costsFrom (forest : Forest) (table : Table ℚ) (root : Nat) (beginning : List Choice) :
    Set ℚ :=
  { cost | ∃ suffix tree, forest.Spells [root] (beginning ++ suffix) [tree] ∧
    tree.cost table = .ok cost }

/-- Each beginning of a derivation leaves some least cost. -/
theorem Forest.Parsed.exists_least {grammar : Grammar ℚ} {gazetteer : Gazetteer} {query : String}
    {table : Table ℚ} {lattice : Lattice} {forest : Forest}
    (parsed : forest.Parsed grammar gazetteer query table lattice) (root : Nat) :
    ∃ least : List Choice → ℚ, ∀ beginning suffix tree,
      forest.Spells [root] (beginning ++ suffix) [tree] →
        IsLeast (forest.costsFrom table root beginning) (least beginning) := by
  obtain ⟨presents, -⟩ := parsed.presents
  have trees := Forest.finite_trees (parsed.finite_readings [root])
  have each : ∀ beginning, ∃ cost, ∀ suffix tree,
      forest.Spells [root] (beginning ++ suffix) [tree] →
        IsLeast (forest.costsFrom table root beginning) cost := by
    intro beginning
    have finite : (forest.costsFrom table root beginning).Finite := by
      refine (trees.image fun tree => (tree.cost table).toOption.getD 0).subset ?_
      intro cost priced
      obtain ⟨suffix, tree, spells, total⟩ := priced
      exact ⟨tree, ⟨_, spells⟩, by simp [total, Except.toOption]⟩
    rcases (forest.costsFrom table root beginning).eq_empty_or_nonempty with none | some
    · refine ⟨0, fun suffix tree spells => ?_⟩
      obtain ⟨cost, total⟩ := Tree.exists_cost tree
        (spells.grounded presents tree (List.mem_singleton_self tree))
      have member : cost ∈ forest.costsFrom table root beginning := ⟨suffix, tree, spells, total⟩
      rw [none] at member
      cases member
    · obtain ⟨cost, lowest⟩ := finite.exists_minimal some
      exact ⟨cost, fun _ _ _ => minimal_iff_isLeast.1 lowest⟩
  choose least isLeast using each
  exact ⟨least, isLeast⟩

namespace Search

variable {search : Search ℚ} {lattice : Lattice} {kindOf : String → ConceptKind}
  {InUse : Pool ℚ → Prop} {root id : Nat} {candidate : Candidate ℚ} {rank : Nat → Nat}
  {nodes : List Nat}

theorem exists_cheapest_trees (each : ∀ id ∈ nodes, ∃ choices trees,
      search.forest.Spells [id] choices trees ∧
      (choices.map search.costOf).sum = search.cheapestAt id) : ∃ choices trees,
    search.forest.Spells nodes choices trees ∧
    (choices.map search.costOf).sum = (nodes.map search.cheapestAt).sum := by
  induction nodes with
  | nil => exact ⟨[], [], .nil, rfl⟩
  | cons id rest ih =>
      obtain ⟨own, others⟩ := List.forall_mem_cons.1 each
      obtain ⟨first, tree, spells, cost⟩ := own
      obtain ⟨more, trees, after, costs⟩ := ih others
      refine ⟨first ++ more, tree ++ trees, spells.append after, ?_⟩
      rw [List.map_append, List.sum_append, List.map_cons, List.sum_cons, cost, costs]

/-- A node has a tree that costs what the node is said to. -/
theorem exists_cheapest_tree (ready : search.Ready lattice kindOf InUse)
    (settled : search.forest.Settles search.table fun id cost => search.cheapest[id]? = some cost)
    (falls : ∀ parent child, search.forest.Child parent child → rank child < rank parent)
    (inside : id < search.forest.nodes.size) : ∃ choices trees,
      search.forest.Spells [id] choices trees ∧
      (choices.map search.costOf).sum = search.cheapestAt id := by
  have bound : id < search.cheapest.size := ready.cheapest ▸ inside
  have given : search.cheapest[id]? = some (search.cheapestAt id) := by
    simp [cheapestAt, Array.getElem?_eq_getElem bound]
  obtain ⟨tree, bears, priced⟩ := settled.exists_tree falls ready.presents.filled given
  obtain ⟨choices, spells⟩ := bears.exists_spells
  have costs := costs_of_spells spells
    ((Tree.preorderCost_eq_cost search.table tree).trans priced)
  exact ⟨choices, [tree], spells, costs.eq_sum.symm⟩

/-- The bound of a candidate is the least that is possible from there on. -/
theorem Bounded.isLeast (bounded : Bounded search candidate)
    (ready : search.Ready lattice kindOf InUse)
    (settled : search.forest.Settles search.table fun id cost => search.cheapest[id]? = some cost)
    (falls : ∀ parent child, search.forest.Child parent child → rank child < rank parent)
    (stands : candidate.Stands search kindOf root) :
    IsLeast (search.forest.costsFrom search.table root candidate.choices.reverse)
      candidate.bound := by
  refine ⟨?_, fun cost priced => ?_⟩
  · obtain ⟨choices, trees, below, total⟩ := exists_cheapest_trees fun id member =>
      exists_cheapest_tree ready settled falls (stands.inside id member)
    obtain ⟨tree, spells, -⟩ := stands.spelled choices trees below
    obtain ⟨cost, priced⟩ := Tree.exists_cost tree
      (spells.grounded ready.presents tree (List.mem_singleton_self tree))
    have costs := costs_of_spells spells
      ((Tree.preorderCost_eq_cost search.table tree).trans priced)
    refine ⟨choices, tree, spells, ?_⟩
    rw [priced, costs.eq_sum, List.map_append, List.sum_append, ← stands.cost.eq_sum, total]
    exact congrArg Except.ok bounded.symm
  · obtain ⟨suffix, tree, spells, total⟩ := priced
    have costs := costs_of_spells spells ((Tree.preorderCost_eq_cost search.table tree).trans total)
    exact bounded.le ready settled stands spells costs

end Search

end QueryGrammar
