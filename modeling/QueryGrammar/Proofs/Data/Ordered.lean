import Mathlib.Data.List.Perm.Basic
import QueryGrammar.Data.Ordered

namespace QueryGrammar

/-! Ascending lists: what insertion adds, that the members determine the list, and that halving finds
them. -/

open Std

variable {α : Type} {order : α → α → Ordering} {values : List α} {value other : α}

abbrev AscendingBy (order : α → α → Ordering) (values : List α) : Prop :=
  values.Pairwise fun first second => order first second = .lt

theorem mem_insertOrdered [LawfulEqCmp order] :
    other ∈ insertOrdered order value values ↔ other = value ∨ other ∈ values := by
  induction values with
  | nil => simp [insertOrdered]
  | cons first rest ih =>
      simp only [insertOrdered]
      cases compared : order value first with
      | lt => simp
      | eq =>
          have same := LawfulEqCmp.eq_of_compare compared
          simp [same]
      | gt =>
          simp only [List.mem_cons, ih]
          exact or_left_comm

theorem ascending_insertOrdered [TransCmp order] [LawfulEqCmp order]
    (ascending : AscendingBy order values) :
    AscendingBy order (insertOrdered order value values) := by
  induction values with
  | nil => simp [insertOrdered, AscendingBy]
  | cons first rest ih =>
      obtain ⟨above, tail⟩ := List.pairwise_cons.1 ascending
      simp only [insertOrdered]
      cases compared : order value first with
      | lt =>
          refine List.pairwise_cons.2 ⟨?_, ascending⟩
          intro later member
          rcases List.mem_cons.1 member with same | member
          · simpa [same] using compared
          · exact TransCmp.lt_trans compared (above later member)
      | eq => exact ascending
      | gt =>
          refine List.pairwise_cons.2 ⟨?_, ih tail⟩
          intro later member
          rcases mem_insertOrdered.1 member with same | member
          · simpa [same] using OrientedCmp.gt_iff_lt.1 compared
          · exact above later member

theorem mem_foldl_insertOrdered [LawfulEqCmp order] {start : List α} :
    other ∈ values.foldl (fun sorted value => insertOrdered order value sorted) start ↔
      other ∈ start ∨ other ∈ values := by
  induction values generalizing start with
  | nil => simp
  | cons first rest ih =>
      simp only [List.foldl_cons, ih, mem_insertOrdered, List.mem_cons]
      tauto

theorem mem_ordered [LawfulEqCmp order] : other ∈ ordered order values ↔ other ∈ values := by
  simp [ordered, mem_foldl_insertOrdered]

theorem ascending_foldl_insertOrdered [TransCmp order] [LawfulEqCmp order] {start : List α}
    (ascending : AscendingBy order start) :
    AscendingBy order
      (values.foldl (fun sorted value => insertOrdered order value sorted) start) := by
  induction values generalizing start with
  | nil => exact ascending
  | cons first rest ih => exact ih (ascending_insertOrdered ascending)

theorem ascending_ordered [TransCmp order] [LawfulEqCmp order] :
    AscendingBy order (ordered order values) :=
  ascending_foldl_insertOrdered .nil

theorem AscendingBy.nodup [ReflCmp order] (ascending : AscendingBy order values) :
    values.Nodup := by
  refine ascending.imp fun before same => ?_
  subst same
  simp [ReflCmp.compare_self] at before

/-- An ascending list is determined by its members. -/
theorem AscendingBy.ext [TransCmp order] {others : List α}
    (ascending : AscendingBy order values) (ascendingOthers : AscendingBy order others)
    (same : ∀ value, value ∈ values ↔ value ∈ others) : values = others := by
  have permuted := (List.perm_ext_iff_of_nodup ascending.nodup ascendingOthers.nodup).2 same
  refine permuted.eq_of_pairwise ?_ ascending ascendingOthers
  intro first second _ _ before after
  have reversed : order first second = .gt := OrientedCmp.gt_iff_lt.2 after
  rw [before] at reversed
  cases reversed

/-- Half of an ascending list is enough to look at: what is in the other half is on the other side
of the one in the middle. -/
theorem searchHalves_iff [TransCmp order] [LawfulEqCmp order] {turns : Nat}
    (ascending : AscendingBy order values) (enough : values.length ≤ turns) :
    searchHalves order value turns values = true ↔ value ∈ values := by
  have self : ∀ value, order value value ≠ .lt := fun value => by simp [ReflCmp.compare_self]
  induction turns generalizing values with
  | zero => simp [searchHalves, List.length_eq_zero_iff.1 (Nat.le_zero.1 enough)]
  | succ turns ih =>
      rw [searchHalves]
      have parts := List.take_append_drop (values.length / 2) values
      split
      · rename_i nothing
        have few := List.drop_eq_nil_iff.1 nothing
        have none : values = [] := List.length_eq_zero_iff.1 (by omega)
        simp [none]
      · rename_i middle above rest
        rw [rest] at parts
        generalize values.take (values.length / 2) = below at parts
        subst parts
        obtain ⟨lower, upper, across⟩ := List.pairwise_append.1 ascending
        obtain ⟨after, upper⟩ := List.pairwise_cons.1 upper
        rw [List.length_append, List.length_cons] at enough
        rw [List.mem_append, List.mem_cons]
        cases compared : order value middle with
        | eq => simp [LawfulEqCmp.eq_of_compare compared]
        | lt =>
            refine (ih lower (by omega)).trans (or_iff_left ?_).symm
            rintro (rfl | later)
            · exact self _ compared
            · exact self _ (TransCmp.lt_trans compared (after value later))
        | gt =>
            have passed := OrientedCmp.gt_iff_lt.1 compared
            refine (ih upper (by omega)).trans ((or_iff_right ?_).trans (or_iff_right ?_)).symm
            · intro earlier
              exact self _ (TransCmp.lt_trans passed (across value earlier middle (List.mem_cons_self ..)))
            · rintro rfl
              exact self _ passed

theorem search_iff [TransCmp order] [LawfulEqCmp order] (ascending : AscendingBy order values) :
    search order value values = true ↔ value ∈ values :=
  searchHalves_iff ascending (Nat.le_refl _)

end QueryGrammar
