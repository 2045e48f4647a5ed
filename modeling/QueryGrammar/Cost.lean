import QueryGrammar.Amount

namespace QueryGrammar

/-! What rules cost.

Everything that computes with costs is written for any type of costs, so that it can be run with
floating-point numbers and reasoned about with exact ones.  The operations are those that the
computations perform; how sums are bracketed is theirs to say.
-/

class Cost (κ : Type) extends Zero κ, Add κ, Sub κ where
  /-- The sum of a list, from the left. -/
  total : List κ → κ
  /-- The least of a list. -/
  least : List κ → κ
  less : κ → κ → Bool
  /-- A total order, by which searches and results are arranged. -/
  order : κ → κ → Ordering
  /-- What sets a rule apart from that many rules before it on the same symbol. -/
  increment : Nat → κ
  isFinite : κ → Bool
  isNonnegative : κ → Bool

namespace Cost

/-- The sum of no amounts is the negative zero, which is neutral for every amount. -/
def totalOfAmounts (costs : List Amount) : Amount :=
  costs.foldl Amount.add (.known (-0.0))

/-- Undefined amounts are passed over; of nothing, the least is infinite. -/
def leastOfAmounts (costs : List Amount) : Amount :=
  costs.foldl (fun best cost => if cost.less best then cost else best) .infinite

instance : Cost Amount where
  zero := .known 0.0
  add := Amount.add
  sub := Amount.sub
  total := totalOfAmounts
  least := leastOfAmounts
  less := Amount.less
  order first second := compare first.rank second.rank
  increment count := .known (Float.ofNat count * 1e-7)
  isFinite := Amount.isFinite
  isNonnegative := Amount.isNonnegative

end Cost

end QueryGrammar
