import QueryGrammar.Forest.Basic

namespace QueryGrammar

/-! The cost of the cheapest derivation of every node.

Costs are remembered once they are known.  A chain of children that is longer than there are nodes
leads back to a node of its own, and the recursion along it would not end.
-/

namespace Forest

variable {κ : Type} [Cost κ]

abbrev Memo (κ : Type) := Array (Option κ)

/-- Adds the costs of children to a cost, one after the other. -/
def addChildren (visit : Nat → Memo κ → Except Fault (κ × Memo κ)) (cost : κ) :
    List Nat → Memo κ → Except Fault (κ × Memo κ)
  | [], memo => .ok (cost, memo)
  | child :: rest, memo => do
      let (childCost, memo) ← visit child memo
      addChildren visit (cost + childCost) rest memo

def costsOfAlternatives (table : Table κ) (visit : Nat → Memo κ → Except Fault (κ × Memo κ)) :
    List Alternative → Memo κ → Except Fault (List κ × Memo κ)
  | [], memo => .ok ([], memo)
  | alternative :: rest, memo => do
      let ruleCost ← table.costOf alternative.rule
      let (cost, memo) ← addChildren visit ruleCost alternative.children memo
      let (costs, memo) ← costsOfAlternatives table visit rest memo
      .ok (cost :: costs, memo)

def cheapestAt (table : Table κ) (forest : Forest) :
    Nat → Nat → Memo κ → Except Fault (κ × Memo κ)
  | 0, _, _ => .error .endless
  | fuel + 1, id, memo => do
      match ← Fault.lookUp .noNode memo id with
      | some cost => .ok (cost, memo)
      | none =>
          let node ← forest.nodeAt id
          let (costs, memo) ←
            costsOfAlternatives table (cheapestAt table forest fuel) node.alternatives memo
          let best := Cost.least costs
          .ok (best, memo.setIfInBounds id (some best))

def cheapestFrom (table : Table κ) (forest : Forest) :
    List Nat → Memo κ → Except Fault (Memo κ)
  | [], memo => .ok memo
  | id :: rest, memo => do
      let (_, memo) ← cheapestAt table forest (forest.nodes.size + 1) id memo
      cheapestFrom table forest rest memo

/-- The cost of the cheapest derivation of every node, by number. -/
def cheapest (forest : Forest) (table : Table κ) : Except Fault (Array κ) := do
  let count := forest.nodes.size
  let memo ← cheapestFrom table forest (List.range count) (Array.replicate count none)
  .ok (memo.map fun cost => cost.getD (Cost.least []))

end Forest

end QueryGrammar
