import QueryGrammar.Proofs.Costs
import QueryGrammar.Proofs.Forest.Cheapest
import QueryGrammar.Proofs.Tree.Preorder

namespace QueryGrammar.Forest

/-! The costs that nodes are given, against all their trees.

Main statement: without rounding, where children do not lead back to a node and every node has an
alternative, a node is given the cost of its cheapest tree, in whatever order nodes are visited.
-/

open Cost

/-- What one tree of a node costs, and none costs less. -/
structure LeastCost (table : Table ℚ) (forest : Forest) (id : Nat) (cost : ℚ) : Prop where
  attained : ∃ tree, forest.Bears [id] [tree] ∧ tree.cost table = .ok cost
  least : ∀ tree, forest.Bears [id] [tree] → ∃ total, tree.cost table = .ok total ∧ cost ≤ total

variable {table : Table ℚ} {forest : Forest} {given : Nat → ℚ → Prop} {rank : Nat → Nat}
  {node : Node} {alternative : Alternative} {entry : IndexedRule ℚ} {id : Nat} {nodes : List Nat}
  {parts trees : List Tree} {cost : ℚ} {costs : List ℚ}

/-- The cost of an alternative is that of its rule and what is said of its children. -/
theorem Amounts.eq_total (amounts : Amounts table given alternative cost) :
    ∃ entry costs, table.rules[alternative.rule]? = some entry ∧
      List.Forall₂ given alternative.children costs ∧ cost = entry.rule.cost + total costs := by
  obtain ⟨entry, costs, known, children, rfl⟩ := amounts
  exact ⟨entry, costs, known, children, foldl_add costs _⟩

/-- A tree costs what the rule of its alternative costs, and its parts. -/
theorem cost_tree (known : table.rules[alternative.rule]? = some entry)
    (bears : forest.Bears alternative.children parts) (priced : Tree.costs table parts = .ok costs) :
    (node.tree id alternative parts).cost table = .ok (entry.rule.cost + total costs) := by
  cases alternative with
  | terminal rule found =>
      cases bears
      cases priced
      have own : table.rules[rule]? = some entry := known
      have leaf : total [(0 : ℚ)] = total [] := add_zero 0
      rw [← leaf, Node.tree, Tree.cost, Table.costOf, Table.ruleAt, Fault.lookUp, own]
      rfl
  | branch rule children =>
      have own : table.rules[rule]? = some entry := known
      rw [Node.tree, Tree.cost, priced, Table.costOf, Table.ruleAt, Fault.lookUp, own]
      rfl

/-- No tree costs less than what is said of its node. -/
theorem Settles.le_costs (settled : forest.Settles table given) (bears : forest.Bears nodes trees)
    (said : List.Forall₂ given nodes costs) :
    ∃ totals, Tree.costs table trees = .ok totals ∧ List.Forall₂ (· ≤ ·) costs totals := by
  induction bears generalizing costs with
  | nil =>
      cases said
      exact ⟨[], by rw [Tree.costs], .nil⟩
  | @node id node alternative rest parts trees found member inner _ ihInner ihOuter =>
      obtain - | ⟨own, others⟩ := said
      obtain ⟨again, offers, foundAgain, each, rfl⟩ := settled _ _ own
      cases found.symm.trans foundAgain
      obtain ⟨index, inside, rfl⟩ := List.getElem_of_mem member
      have last : index < offers.length := each.length_eq ▸ inside
      have amounts : Amounts table given node.alternatives[index] offers[index] :=
        each.get inside last
      obtain ⟨entry, shares, known, children, offer⟩ := amounts.eq_total
      obtain ⟨totals, priced, above⟩ := ihInner children
      obtain ⟨more, pricedRest, aboveRest⟩ := ihOuter others
      have tree : (node.tree id node.alternatives[index] parts).cost table =
          .ok (entry.rule.cost + total totals) :=
        cost_tree known inner priced
      refine ⟨(entry.rule.cost + total totals) :: more, ?_, .cons ?_ aboveRest⟩
      · rw [Tree.costs, tree, pricedRest]
        rfl
      · calc least offers ≤ offers[index] := least_le (List.getElem_mem last)
          _ = entry.rule.cost + total shares := offer
          _ ≤ entry.rule.cost + total totals := by gcongr; exact above.sum_le_sum

theorem exists_trees (each : List.Forall₂ (fun id cost => ∃ tree, forest.Bears [id] [tree] ∧
      tree.cost table = .ok cost) nodes costs) :
    ∃ trees, forest.Bears nodes trees ∧ Tree.costs table trees = .ok costs := by
  induction each with
  | nil => exact ⟨[], .nil, by rw [Tree.costs]⟩
  | cons own _ ih =>
      obtain ⟨tree, bears, priced⟩ := own
      obtain ⟨trees, others, pricedRest⟩ := ih
      obtain - | ⟨found, member, inner, -⟩ := bears
      refine ⟨_ :: trees, .node found member inner others, ?_⟩
      rw [Tree.costs, priced, pricedRest]
      rfl

/-- What is said of a node is what one of its trees costs. -/
theorem Settles.exists_tree (settled : forest.Settles table given)
    (falls : ∀ parent child, forest.Child parent child → rank child < rank parent)
    (filled : ∀ node ∈ forest.nodes, node.alternatives ≠ []) (said : given id cost) :
    ∃ tree, forest.Bears [id] [tree] ∧ tree.cost table = .ok cost := by
  induction height : rank id using Nat.strong_induction_on generalizing id cost with
  | _ height ih =>
      subst height
      obtain ⟨node, offers, found, each, rfl⟩ := settled _ _ said
      have offered : offers ≠ [] := fun none => filled node (Array.mem_of_getElem? found)
        (List.forall₂_nil_right_iff.1 (none ▸ each))
      obtain ⟨index, last, lowest⟩ := List.getElem_of_mem (least_mem offered)
      have inside : index < node.alternatives.length := each.length_eq ▸ last
      have amounts : Amounts table given node.alternatives[index] offers[index] :=
        each.get inside last
      obtain ⟨entry, shares, known, children, offer⟩ := amounts.eq_total
      have member := List.getElem_mem inside
      have below : ∀ child ∈ node.alternatives[index].children, ∀ cost, given child cost →
          ∃ tree, forest.Bears [child] [tree] ∧ tree.cost table = .ok cost :=
        fun child among cost said =>
          ih (rank child) (falls id child (child_of_has ⟨node, found, member⟩ among)) said rfl
      have each := (List.forall₂_and_left _ _).2 ⟨below, children⟩
      obtain ⟨parts, inner, priced⟩ := exists_trees (each.imp fun child cost own => own.1 cost own.2)
      refine ⟨_, .node found member inner .nil, ?_⟩
      rw [cost_tree known inner priced, ← lowest, ← offer]

theorem Settles.leastCost (settled : forest.Settles table given)
    (falls : ∀ parent child, forest.Child parent child → rank child < rank parent)
    (filled : ∀ node ∈ forest.nodes, node.alternatives ≠ []) (said : given id cost) :
    forest.LeastCost table id cost := by
  refine ⟨settled.exists_tree falls filled said, fun tree bears => ?_⟩
  obtain ⟨totals, priced, above⟩ := settled.le_costs bears (.cons said .nil)
  obtain - | ⟨least, none⟩ := above
  cases none
  rw [Tree.costs, Tree.costs] at priced
  cases own : tree.cost table with
  | error fault => simp [own, bind, Except.bind] at priced
  | ok total =>
      simp only [own, bind, Except.bind, Except.ok.injEq, List.cons.injEq, and_true] at priced
      exact ⟨total, rfl, priced ▸ least⟩

/-- Every node is given the cost of its cheapest tree. In whatever order nodes are visited, what is
remembered of a node is the cost of its cheapest tree, and all that are visited are remembered. -/
theorem cheapest_leastCost (linked : forest.Linked table)
    (founded : WellFounded fun child parent => forest.Child parent child)
    (filled : ∀ node ∈ forest.nodes, node.alternatives ≠ []) :
    (∃ costs : Array ℚ, forest.cheapest table = .ok costs ∧ costs.size = forest.nodes.size ∧
      ∀ (id : Nat) cost, costs[id]? = some cost → forest.LeastCost table id cost) ∧
    ∀ order : List Nat, (∀ id ∈ order, id < forest.nodes.size) →
      ∃ memo, cheapestFrom table forest order (.replicate forest.nodes.size none) = .ok memo ∧
        (∀ id cost, Remembers memo id cost → forest.LeastCost table id cost) ∧
        ∀ id ∈ order, ∃ cost, Remembers memo id cost := by
  obtain ⟨rank, bounded, falls⟩ := linked.exists_rank founded
  refine ⟨?_, fun order inside => ?_⟩
  · obtain ⟨costs, cheapest, size, settled⟩ := cheapest_settles linked falls bounded
    exact ⟨costs, cheapest, size, fun id cost => settled.leastCost falls filled⟩
  · obtain ⟨memo, visited, -, settled, -, all⟩ := cheapestFrom_spec linked falls bounded inside
      Array.size_replicate (settles_unknown _)
    exact ⟨memo, visited, fun id cost => settled.leastCost falls filled, all⟩

/-- A forest in which one node is reached along several paths, and is a child twice of one
alternative. -/
def shared : Forest where
  nodes := #[⟨0, 0, 2, [.branch 3 [1, 2], .branch 4 [1, 1]]⟩, ⟨0, 0, 1, [.branch 2 [2]]⟩,
    ⟨1, 0, 1, [.terminal 0 0, .terminal 1 0]⟩]
  index := [((1, 0, 1), 2), ((0, 0, 1), 1), ((0, 0, 2), 0)]
  found := #[⟨"a", 0, 1, "a", none⟩]
  root := some 0

/-- The rules of that forest. -/
def sharedRules : Table ℚ where
  start := 0
  symbols := #["S", "A"]
  rules := #[⟨1, [], { Rule.literal "a" with cost := 3 }⟩,
    ⟨1, [], { Rule.literal "A" with cost := 2 }⟩,
    ⟨0, [1], { Rule.symbols ["A"] with cost := 1 }⟩,
    ⟨0, [0, 1], { Rule.symbols ["S", "A"] with cost := 2 }⟩,
    ⟨0, [0, 0], { Rule.symbols ["S", "S"] with cost := 1 / 2 }⟩]
  literals := {}
  states := #[]
  longestLiteral := 1

theorem cheapest_leastCost_shared : shared.Linked sharedRules ∧
    (WellFounded fun child parent => shared.Child parent child) ∧
    (∀ node ∈ shared.nodes, node.alternatives ≠ []) ∧ shared.LeastCost sharedRules 0 (13 / 2) := by
  have linked : shared.Linked sharedRules := by decide
  have rising : ∀ pair ∈ shared.listed, ∀ child ∈ pair.2.children, pair.1 < child := by decide
  have founded : WellFounded fun child parent => shared.Child parent child := by
    refine Subrelation.wf (fun {child parent} related => ?_) (measure (3 - ·)).wf
    obtain ⟨rule, children, has, member⟩ := related
    have above : parent < child := rising _ (mem_listed.2 has) child member
    have inside : child < 3 := linked.child parent child ⟨rule, children, has, member⟩
    show 3 - child < 3 - parent
    omega
  have filled : ∀ node ∈ shared.nodes, node.alternatives ≠ [] := by simp [shared]
  have given : ((shared.cheapest sharedRules).toOption.any fun costs =>
      decide (costs[0]? = some (13 / 2))) = true := by
    decide +kernel
  obtain ⟨⟨costs, cheapest, -, least⟩, -⟩ := cheapest_leastCost linked founded filled
  rw [cheapest] at given
  exact ⟨linked, founded, filled, least 0 _ (of_decide_eq_true given)⟩

end QueryGrammar.Forest
