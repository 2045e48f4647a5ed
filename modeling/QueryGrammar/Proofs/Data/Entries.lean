import Mathlib.Data.List.Perm.Basic
import Std.Data.TreeMap

namespace QueryGrammar

/-! The entries of an ordered map as a list: which one is first, and what insertion and removal do
to them. -/

open Std

variable {α β : Type} {order : α → α → Ordering} {map : TreeMap α β order} {key : α} {value : β}
  {entry : α × β}

theorem minEntry?_eq_head? (map : TreeMap α β order) : map.minEntry? = map.toList.head? := by
  obtain ⟨⟨tree, valid⟩⟩ := map
  have leftmost : DTreeMap.Internal.Impl.Const.minEntry? tree =
      (tree.toListModel.map fun entry => (entry.1, entry.2)).head? := by
    clear valid
    induction tree using DTreeMap.Internal.Impl.Const.minEntry?.induct with
    | case1 => simp [DTreeMap.Internal.Impl.Const.minEntry?]
    | case2 => simp [DTreeMap.Internal.Impl.Const.minEntry?]
    | case3 _ _ _ _ _ _ _ left _ ih =>
        rw [DTreeMap.Internal.Impl.Const.minEntry?, ih]
        simp only [DTreeMap.Internal.Impl.toListModel_inner]
        cases left.toListModel <;> simp
  exact leftmost.trans
    (congrArg List.head? DTreeMap.Internal.Impl.Const.toList_eq_toListModel_map.symm)

variable [TransCmp order]

theorem nodup_toList (map : TreeMap α β order) : map.toList.Nodup := by
  refine map.ordered_keys_toList.imp fun before same => ?_
  subst same
  simp [ReflCmp.compare_self] at before

theorem mem_toList_erase :
    entry ∈ (map.erase key).toList ↔ entry ∈ map.toList ∧ order key entry.1 ≠ .eq := by
  obtain ⟨other, known⟩ := entry
  simp only [TreeMap.mem_toList_iff_getKey?_eq_some_and_getElem?_eq_some, TreeMap.getKey?_erase,
    TreeMap.getElem?_erase]
  split <;> simp_all

theorem mem_toList_insert : entry ∈ (map.insert key value).toList ↔
    entry = (key, value) ∨ entry ∈ map.toList ∧ order key entry.1 ≠ .eq := by
  obtain ⟨other, known⟩ := entry
  simp only [TreeMap.mem_toList_iff_getKey?_eq_some_and_getElem?_eq_some, TreeMap.getKey?_insert,
    TreeMap.getElem?_insert, Prod.mk.injEq]
  split
  · simp_all [eq_comm]
  · rename_i apart
    have different : other ≠ key := by
      intro given
      subst given
      exact apart ReflCmp.compare_self
    simp [different, apart]

theorem toList_insert_of_fresh (fresh : ∀ entry ∈ map.toList, order key entry.1 ≠ .eq) :
    (map.insert key value).toList.Perm ((key, value) :: map.toList) := by
  have absent : (key, value) ∉ map.toList := fun member =>
    fresh _ member ReflCmp.compare_self
  refine (List.perm_ext_iff_of_nodup (nodup_toList _)
    (List.nodup_cons.2 ⟨absent, nodup_toList map⟩)).2 fun entry => ?_
  rw [mem_toList_insert, List.mem_cons]
  exact or_congr_right ⟨And.left, fun member => ⟨member, fresh entry member⟩⟩

theorem toList_erase_of_mem (present : (key, value) ∈ map.toList) :
    map.toList.Perm ((key, value) :: (map.erase key).toList) := by
  have absent : (key, value) ∉ (map.erase key).toList := fun member =>
    (mem_toList_erase.1 member).2 ReflCmp.compare_self
  refine (List.perm_ext_iff_of_nodup (nodup_toList map)
    (List.nodup_cons.2 ⟨absent, nodup_toList _⟩)).2 fun entry => ?_
  rw [List.mem_cons, mem_toList_erase]
  constructor
  · intro member
    by_cases same : order key entry.1 = .eq
    · obtain ⟨other, known⟩ := entry
      have keys := (TreeMap.mem_toList_iff_getKey?_eq_some_and_getElem?_eq_some.1 member)
      have own := (TreeMap.mem_toList_iff_getKey?_eq_some_and_getElem?_eq_some.1 present)
      rw [TreeMap.getKey?_congr same, keys.1, TreeMap.getElem?_congr same, keys.2] at own
      exact .inl (by simpa using own)
    · exact .inr ⟨member, same⟩
  · intro given
    rcases given with rfl | member
    · exact present
    · exact member.1

/-- The first entry comes before all others, which are left once it is taken out. -/
theorem minEntry?_spec (first : map.minEntry? = some entry) :
    map.toList.Perm (entry :: (map.erase entry.1).toList) ∧
      ∀ other ∈ (map.erase entry.1).toList, order entry.1 other.1 = .lt := by
  rw [minEntry?_eq_head?] at first
  obtain ⟨rest, split⟩ : ∃ rest, map.toList = entry :: rest := by
    cases entries : map.toList with
    | nil => simp [entries] at first
    | cons front rest =>
        rw [entries, List.head?_cons, Option.some.injEq] at first
        exact ⟨rest, by rw [first]⟩
  have present : entry ∈ map.toList := split ▸ List.mem_cons_self ..
  have ascending := split ▸ map.ordered_keys_toList
  refine ⟨toList_erase_of_mem present, fun other member => ?_⟩
  obtain ⟨own, apart⟩ := mem_toList_erase.1 member
  rw [split] at own
  rcases List.mem_cons.1 own with rfl | later
  · exact absurd ReflCmp.compare_self apart
  · exact (List.pairwise_cons.1 ascending).1 other later

theorem getElem?_of_first (first : map.minEntry? = some (key, value)) :
    map[key]? = some value ∧ ∀ other known, map[other]? = some known → (order key other).isLE := by
  obtain ⟨entries, before⟩ := minEntry?_spec first
  have member : (key, value) ∈ map.toList := entries.mem_iff.2 (List.mem_cons_self ..)
  refine ⟨(TreeMap.mem_toList_iff_getKey?_eq_some_and_getElem?_eq_some.1 member).2, ?_⟩
  intro other known found
  obtain ⟨present, same, listed⟩ :=
    TreeMap.getElem?_eq_some_iff_exists_compare_eq_eq_and_mem_toList.1 found
  rw [TransCmp.congr_right same]
  rcases List.mem_cons.1 (entries.mem_iff.1 listed) with equal | later
  · obtain ⟨rfl, -⟩ := Prod.mk.inj equal
    exact ReflCmp.isLE_rfl
  · rw [before _ later]
    rfl

theorem getElem?_of_no_first (idle : map.minEntry? = none) (key : α) : map[key]? = none := by
  rw [minEntry?_eq_head?, List.head?_eq_none_iff] at idle
  cases found : map[key]? with
  | none => rfl
  | some value =>
      obtain ⟨other, -, listed⟩ :=
        TreeMap.getElem?_eq_some_iff_exists_compare_eq_eq_and_mem_toList.1 found
      rw [idle] at listed
      cases listed

end QueryGrammar
