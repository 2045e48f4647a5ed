import Mathlib.Algebra.Order.BigOperators.Group.List
import Mathlib.Algebra.Order.Field.Rat
import QueryGrammar.Cost

namespace QueryGrammar

/-! Types of costs: floating-point amounts, and exact numbers. -/

open Std

instance : TransCmp (Cost.order : Amount → Amount → Ordering) where
  eq_swap {first second} := by
    have ranks : compare first.rank second.rank = (compare second.rank first.rank).swap :=
      OrientedCmp.eq_swap
    exact ranks
  isLE_trans {first second third} before after := by
    have ranks : (compare first.rank second.rank).isLE := before
    have more : (compare second.rank third.rank).isLE := after
    have whole : (compare first.rank third.rank).isLE := TransCmp.isLE_trans ranks more
    exact whole

/-- Costs without rounding. There is no infinite one, so nothing in particular is the least of no
costs. -/
instance : Cost ℚ where
  total := List.sum
  least costs := costs.min?.getD 0
  less first second := decide (first < second)
  order := compare
  increment count := count / 10 ^ 7
  isFinite _ := true
  isNonnegative cost := decide (0 ≤ cost)

instance : TransCmp (Cost.order : ℚ → ℚ → Ordering) :=
  inferInstanceAs (TransCmp (compare : ℚ → ℚ → Ordering))

namespace Cost

theorem total_nil : total ([] : List ℚ) = 0 :=
  rfl

theorem total_cons (cost : ℚ) (costs : List ℚ) : total (cost :: costs) = cost + total costs :=
  rfl

theorem total_append (costs others : List ℚ) :
    total (costs ++ others) = total costs + total others := by
  induction costs with
  | nil => exact (zero_add _).symm
  | cons cost rest ih => rw [List.cons_append, total_cons, total_cons, ih, add_assoc]

theorem foldl_add (costs : List ℚ) (start : ℚ) :
    costs.foldl (· + ·) start = start + total costs := by
  induction costs generalizing start with
  | nil => exact (add_zero start).symm
  | cons cost rest ih => rw [List.foldl_cons, ih, total_cons, add_assoc]

theorem isLE_order {first second : ℚ} : (order first second).isLE ↔ first ≤ second :=
  Ordering.isLE_iff_ne_gt.trans compare_le_iff_le

theorem least_le {costs : List ℚ} {cost : ℚ} (member : cost ∈ costs) : least costs ≤ cost := by
  cases lowest : costs.min? with
  | none => simp [List.min?_eq_none_iff.1 lowest] at member
  | some value =>
      have least : Cost.least costs = value := congrArg (Option.getD · 0) lowest
      exact least ▸ (List.min?_eq_some_iff.1 lowest).2 cost member

theorem least_mem {costs : List ℚ} (some : costs ≠ []) : least costs ∈ costs := by
  cases lowest : costs.min? with
  | none => exact absurd (List.min?_eq_none_iff.1 lowest) some
  | some value =>
      have least : Cost.least costs = value := congrArg (Option.getD · 0) lowest
      exact least ▸ (List.min?_eq_some_iff.1 lowest).1

theorem total_nonneg {costs : List ℚ} (nonneg : ∀ cost ∈ costs, 0 ≤ cost) : 0 ≤ total costs :=
  List.sum_nonneg nonneg

theorem le_total {costs : List ℚ} (nonneg : ∀ cost ∈ costs, 0 ≤ cost) :
    ∀ cost ∈ costs, cost ≤ total costs :=
  fun _ member => List.single_le_sum nonneg _ member

/-- Costs of which sums are negative only if one of them is. -/
class Additive (κ : Type) [Cost κ] : Prop where
  isNonnegative_add {first second : κ} : isNonnegative first = true →
    isNonnegative second = true → isNonnegative (first + second) = true
  isNonnegative_total {costs : List κ} : (∀ cost ∈ costs, isNonnegative cost = true) →
    isNonnegative (total costs) = true

/-- Costs that grow when they are added up, unless one of them is negative. -/
class Growing (κ : Type) [Cost κ] : Prop extends Additive κ where
  less_irrefl (cost : κ) : less cost cost = false
  less_trans {first second third : κ} : less first second = true → less second third = true →
    less first third = true
  less_or_less {first second third : κ} : isNonnegative first = true →
    isNonnegative second = true → isNonnegative third = true → less first third = true →
    less first second = true ∨ less second third = true
  add_not_less {first second : κ} : isNonnegative first = true → isNonnegative second = true →
    less (first + second) second = false
  total_not_less {costs : List κ} : (∀ cost ∈ costs, isNonnegative cost = true) →
    ∀ cost ∈ costs, less (total costs) cost = false

theorem isNonnegative_iff {cost : ℚ} : isNonnegative cost = true ↔ 0 ≤ cost :=
  decide_eq_true_iff

theorem less_iff {first second : ℚ} : less first second = true ↔ first < second :=
  decide_eq_true_iff

theorem not_less_iff {first second : ℚ} : less first second = false ↔ second ≤ first := by
  rw [← Bool.not_eq_true, less_iff, Rat.not_lt]

instance : Growing ℚ where
  less_irrefl cost := not_less_iff.2 le_rfl
  less_trans before after := less_iff.2 ((less_iff.1 before).trans (less_iff.1 after))
  less_or_less {first second third} _ _ _ less := by
    rcases lt_or_ge first second with below | above
    · exact .inl (less_iff.2 below)
    · exact .inr (less_iff.2 (above.trans_lt (less_iff.1 less)))
  isNonnegative_add first second :=
    isNonnegative_iff.2 (add_nonneg (isNonnegative_iff.1 first) (isNonnegative_iff.1 second))
  add_not_less first _ := not_less_iff.2 (le_add_of_nonneg_left (isNonnegative_iff.1 first))
  isNonnegative_total nonneg := isNonnegative_iff.2
    (total_nonneg fun cost member => isNonnegative_iff.1 (nonneg cost member))
  total_not_less nonneg cost member := not_less_iff.2
    (le_total (fun cost member => isNonnegative_iff.1 (nonneg cost member)) cost member)

end Cost

end QueryGrammar
