import QueryGrammar.Meaning.Siblings

namespace QueryGrammar

/-! Meanings are in a total order. -/

open Std

/-- What the comparisons of three values in a row say of the first and the last. -/
structure Chains (first second whole : Ordering) : Prop where
  isLE : first.isLE → second.isLE → whole.isLE
  lt_left : first = .lt → second.isLE → whole = .lt
  lt_right : first.isLE → second = .lt → whole = .lt

theorem Chains.then {first second whole first' second' whole' : Ordering}
    (chain : Chains first second whole) (next : Chains first' second' whole') :
    Chains (first.then first') (second.then second') (whole.then whole') := by
  obtain ⟨isLE, left, right⟩ := chain
  obtain ⟨isLE', left', right'⟩ := next
  constructor <;> cases first <;> cases second <;> cases whole <;>
    simp_all [Ordering.then, Ordering.isLE]

theorem Chains.compare (first second third : String) :
    Chains (compare first second) (compare second third) (compare first third) where
  isLE := TransCmp.isLE_trans
  lt_left := TransCmp.lt_of_lt_of_isLE
  lt_right := TransCmp.lt_of_isLE_of_lt

namespace Meaning

variable {κ : Type}

mutual

theorem order_swap : (first other : Meaning κ) → order first other = (order other first).swap
  | .apply concept args, .apply other others => by
      have names : compare concept.name other.name = (compare other.name concept.name).swap :=
        OrientedCmp.eq_swap
      rw [order, order, Ordering.swap_then, names, orderAll_swap args others]

theorem orderAll_swap : (values others : List (Meaning κ)) →
    orderAll values others = (orderAll others values).swap
  | [], [] => rfl
  | [], _ :: _ => rfl
  | _ :: _, [] => rfl
  | first :: rest, other :: others => by
      rw [orderAll, orderAll, Ordering.swap_then, order_swap first other,
        orderAll_swap rest others]

end

mutual

theorem order_chains : (first second third : Meaning κ) →
    Chains (order first second) (order second third) (order first third)
  | .apply _ args, .apply _ args', .apply _ args'' => by
      simp only [order]
      exact (Chains.compare ..).then (orderAll_chains args args' args'')

theorem orderAll_chains : (first second third : List (Meaning κ)) →
    Chains (orderAll first second) (orderAll second third) (orderAll first third)
  | [], second, third => by
      cases second <;> cases third <;> constructor <;> simp [orderAll, Ordering.isLE]
  | _ :: _, [], third => by
      cases third <;> constructor <;> simp [orderAll, Ordering.isLE]
  | _ :: _, _ :: _, [] => by
      constructor <;> simp [orderAll, Ordering.isLE]
  | first :: rest, second :: rest', third :: rest'' => by
      simp only [orderAll]
      exact (order_chains first second third).then (orderAll_chains rest rest' rest'')

end

instance : TransCmp (order : Meaning κ → Meaning κ → Ordering) where
  eq_swap := order_swap _ _
  isLE_trans := (order_chains _ _ _).isLE

instance : TransCmp (orderAll : List (Meaning κ) → List (Meaning κ) → Ordering) where
  eq_swap := orderAll_swap _ _
  isLE_trans := (orderAll_chains _ _ _).isLE

end Meaning

end QueryGrammar
