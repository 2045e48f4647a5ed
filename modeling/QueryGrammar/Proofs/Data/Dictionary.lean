import QueryGrammar.Data.Dictionary

namespace QueryGrammar.Dictionary

/-! What a dictionary holds, in terms of its entries. -/

variable {α : Type u} {β : Type v} {dictionary : Dictionary α} {key : String} {value : α}

@[simp] theorem get?_empty : ({} : Dictionary α).get? key = none :=
  rfl

theorem mem_iff_valueOf? {entries : List (String × α)} (ordered : Ascending entries) :
    (key, value) ∈ entries ↔ valueOf? key entries = some value := by
  induction entries with
  | nil => simp [valueOf?]
  | cons head rest ih =>
      obtain ⟨present, first⟩ := head
      obtain ⟨above, tail⟩ := List.pairwise_cons.1 ordered
      simp only [valueOf?, List.mem_cons, Prod.mk.injEq]
      by_cases here : present = key
      · subst here
        rw [if_pos rfl, Option.some.injEq]
        constructor
        · intro given
          rcases given with ⟨-, rfl⟩ | later
          · rfl
          · exact absurd (above _ later) (String.lt_irrefl _)
        · exact fun same => .inl ⟨rfl, same.symm⟩
      · rw [if_neg here, ← ih tail]
        exact or_iff_right fun same => here same.1.symm

theorem mem_entries_iff : (key, value) ∈ dictionary.entries ↔ dictionary.get? key = some value :=
  mem_iff_valueOf? dictionary.ordered

theorem nodup_keys (dictionary : Dictionary α) : dictionary.keys.Nodup := by
  refine List.pairwise_map.2 (dictionary.ordered.imp ?_)
  intro first second less same
  exact String.lt_irrefl _ (same ▸ less)

theorem mem_keys_iff : key ∈ dictionary.keys ↔ ∃ value, dictionary.get? key = some value := by
  simp only [keys, List.mem_map, Prod.exists, exists_and_right, exists_eq_right, mem_entries_iff]

theorem get?_map {f : String → α → β} :
    (dictionary.map f).get? key = (dictionary.get? key).map (f key) := by
  refine Option.ext fun value => ?_
  rw [← mem_entries_iff, entries_map, Option.map_eq_some_iff]
  simp only [List.mem_map, Prod.mk.injEq, Prod.exists, mem_entries_iff]
  constructor
  · intro given
    obtain ⟨_, old, found, rfl, made⟩ := given
    exact ⟨old, found, made⟩
  · intro given
    obtain ⟨old, found, made⟩ := given
    exact ⟨key, old, found, rfl, made⟩

theorem get?_filter {keep : String → α → Bool} :
    (dictionary.filter keep).get? key = (dictionary.get? key).filter (keep key) := by
  refine Option.ext fun value => ?_
  rw [← mem_entries_iff, entries_filter, List.mem_filter, mem_entries_iff,
    Option.filter_eq_some_iff]

/-- What a key holds can be set to itself. -/
theorem alter_eq_self {change : Option α → α} (found : dictionary.get? key = some value)
    (same : change (some value) = value) : dictionary.alter key change = dictionary := by
  refine ext ?_
  obtain ⟨entries, ordered⟩ := dictionary
  show alterEntries key change entries = entries
  replace found : valueOf? key entries = some value := found
  induction entries with
  | nil => cases found
  | cons head rest ih =>
      obtain ⟨present, old⟩ := head
      obtain ⟨above, tail⟩ := List.pairwise_cons.1 ordered
      rw [valueOf?] at found
      split at found
      · rename_i here
        subst here
        cases found
        rw [alterEntries, if_neg (String.lt_irrefl _), if_neg (String.lt_irrefl _), same]
      · have later : present < key := above (key, value) ((mem_iff_valueOf? tail).2 found)
        rw [alterEntries, if_neg (String.lt_asymm later), if_pos later, ih tail found]

theorem alterEntries_last {value : Option α → α} {entries : List (String × α)}
    (below : ∀ entry ∈ entries, entry.1 < key) :
    alterEntries key value entries = entries ++ [(key, value none)] := by
  induction entries with
  | nil => rfl
  | cons head rest ih =>
      obtain ⟨first, others⟩ := List.forall_mem_cons.1 below
      rw [alterEntries, if_neg (String.lt_asymm first), if_pos first, ih others, List.cons_append]

/-- Entries that are in order are collected as they are. -/
theorem entries_ofList {entries : List (String × α)} (ordered : Ascending entries) :
    (ofList entries).entries = entries := by
  have collected : ∀ (rest : List (String × α)) (before : Dictionary α),
      Ascending (before.entries ++ rest) →
      (rest.foldl (fun dictionary entry => dictionary.insert entry.1 entry.2) before).entries =
        before.entries ++ rest := by
    intro rest
    induction rest with
    | nil => simp
    | cons entry rest ih =>
        intro before ordered
        have below : ∀ other ∈ before.entries, other.1 < entry.1 := fun other member =>
          (List.pairwise_append.1 ordered).2.2 other member entry (List.mem_cons_self ..)
        have inserted : (before.insert entry.1 entry.2).entries = before.entries ++ [entry] :=
          alterEntries_last below
        rw [List.foldl_cons, ih, inserted, List.append_assoc, List.singleton_append]
        rwa [inserted, List.append_assoc, List.singleton_append]
  exact collected entries empty ordered

theorem ofList_entries (dictionary : Dictionary α) : ofList dictionary.entries = dictionary :=
  ext (entries_ofList dictionary.ordered)

end QueryGrammar.Dictionary
