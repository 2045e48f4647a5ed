import Mathlib.Algebra.BigOperators.Group.Finset.Sigma
import Mathlib.Algebra.BigOperators.Group.Finset.Piecewise
import Mathlib.Data.Finset.Card

namespace QueryGrammar

/-! Counting the lists in a set that begin in the same way. -/

variable {α : Type} [DecidableEq α] {lists : Finset (List α)} {start list : List α}

/-- How many of the lists begin with `start`. -/
def weight (lists : Finset (List α)) (start : List α) : Nat :=
  (lists.filter (start <+: ·)).card

theorem weight_nil : weight lists [] = lists.card := by
  simp [weight]

theorem weight_pos (member : start ∈ lists) : 0 < weight lists start :=
  Finset.card_pos.2 ⟨start, Finset.mem_filter.2 ⟨member, List.prefix_rfl⟩⟩

theorem weight_eq_zero (none : ∀ suffix, start ++ suffix ∉ lists) : weight lists start = 0 := by
  refine Finset.card_eq_zero.2 (Finset.filter_eq_empty_iff.2 fun list member begins => ?_)
  obtain ⟨suffix, rfl⟩ := begins
  exact none suffix member

/-- Lists that begin in the same way end there, or they go on with one of several values. -/
theorem weight_eq_sum (count : Nat) {value : Nat → α} (distinct : Function.Injective value)
    (next : ∀ suffix, start ++ suffix ∈ lists →
      suffix = [] ∨ ∃ index rest, index < count ∧ suffix = value index :: rest) :
    weight lists start = (if start ∈ lists then 1 else 0) +
      ∑ index ∈ Finset.range count, weight lists (start ++ [value index]) := by
  have own : (if start ∈ lists then 1 else 0) = ∑ list ∈ lists, if list = start then 1 else 0 := by
    rw [Finset.sum_ite_eq' lists start fun _ => 1]
  simp only [weight, Finset.card_filter]
  rw [Finset.sum_comm, own, ← Finset.sum_add_distrib]
  refine Finset.sum_congr rfl fun list member => ?_
  by_cases begins : start <+: list
  · obtain ⟨suffix, rfl⟩ := begins
    rcases next suffix member with rfl | ⟨index, rest, inside, rfl⟩
    · have longer : ∀ value : α, ¬ start ++ [value] <+: start := by
        intro value prefixed
        have length := prefixed.length_le
        simp only [List.length_append, List.length_singleton] at length
        omega
      simp [longer]
    · have same : ∀ other, value other = value index ↔ other = index := fun other =>
        distinct.eq_iff
      simp [List.prefix_append_right_inj, List.cons_prefix_cons, same, inside]
  · have none : ∀ value : α, ¬ start ++ [value] <+: list := fun value prefixed =>
      begins ((List.prefix_append start [value]).trans prefixed)
    have apart : list ≠ start := by
      intro given
      subst given
      exact begins List.prefix_rfl
    simp [begins, none, apart]

end QueryGrammar
