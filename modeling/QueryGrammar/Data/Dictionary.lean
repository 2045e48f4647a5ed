namespace QueryGrammar

/-! Dictionaries from texts to values.

The entries are kept in strictly ascending order of their keys, so a key occurs once, a dictionary
is determined by what it holds, and listing it always gives the same order.
-/

abbrev Ascending (entries : List (String × α)) : Prop :=
  entries.Pairwise fun first second => first.1 < second.1

structure Dictionary (α : Type u) where
  entries : List (String × α)
  ordered : Ascending entries

namespace Dictionary

variable {α : Type u} {β : Type v}

theorem ext {first second : Dictionary α} (same : first.entries = second.entries) :
    first = second := by
  cases first
  cases second
  cases same
  rfl

instance [DecidableEq α] : DecidableEq (Dictionary α) := fun first second =>
  if same : first.entries = second.entries then isTrue (ext same)
  else isFalse fun equal => same (equal ▸ rfl)

instance [BEq α] : BEq (Dictionary α) :=
  ⟨fun first second => first.entries == second.entries⟩

def empty : Dictionary α := ⟨[], .nil⟩

instance : EmptyCollection (Dictionary α) := ⟨empty⟩
instance : Inhabited (Dictionary α) := ⟨empty⟩

def keys (dictionary : Dictionary α) : List String :=
  dictionary.entries.map (·.1)

def values (dictionary : Dictionary α) : List α :=
  dictionary.entries.map (·.2)

def size (dictionary : Dictionary α) : Nat :=
  dictionary.entries.length

/-- The value of the first entry with this key. -/
def valueOf? (key : String) : List (String × α) → Option α
  | [] => none
  | (present, value) :: rest => if present = key then some value else valueOf? key rest

def get? (dictionary : Dictionary α) (key : String) : Option α :=
  valueOf? key dictionary.entries

def contains (dictionary : Dictionary α) (key : String) : Bool :=
  (dictionary.get? key).isSome

/-- Sets the value of `key` to what `value` makes of the present one. -/
def alterEntries (key : String) (value : Option α → α) :
    List (String × α) → List (String × α)
  | [] => [(key, value none)]
  | (present, old) :: rest =>
      if key < present then (key, value none) :: (present, old) :: rest
      else if present < key then (present, old) :: alterEntries key value rest
      else (present, value (some old)) :: rest

theorem key_of_mem_alterEntries {key : String} {value : Option α → α}
    {entries : List (String × α)} {entry : String × α}
    (found : entry ∈ alterEntries key value entries) :
    entry.1 = key ∨ ∃ old ∈ entries, old.1 = entry.1 := by
  induction entries with
  | nil =>
      simp only [alterEntries, List.mem_singleton] at found
      simp [found]
  | cons head rest step =>
      obtain ⟨present, old⟩ := head
      simp only [alterEntries] at found
      split at found
      · rcases List.mem_cons.1 found with same | later
        · simp [same]
        · exact .inr ⟨entry, later, rfl⟩
      · split at found
        · rcases List.mem_cons.1 found with same | later
          · exact .inr ⟨(present, old), by simp, by simp [same]⟩
          · rcases step later with same | ⟨other, member, keyed⟩
            · exact .inl same
            · exact .inr ⟨other, by simp [member], keyed⟩
        · rcases List.mem_cons.1 found with same | later
          · exact .inr ⟨(present, old), by simp, by simp [same]⟩
          · exact .inr ⟨entry, by simp [later], rfl⟩

theorem ascending_alterEntries {key : String} {value : Option α → α}
    {entries : List (String × α)} (ordered : Ascending entries) :
    Ascending (alterEntries key value entries) := by
  induction entries with
  | nil => simp [alterEntries, Ascending]
  | cons head rest step =>
      obtain ⟨present, old⟩ := head
      have tail := (List.pairwise_cons.1 ordered).2
      have above := (List.pairwise_cons.1 ordered).1
      simp only [alterEntries]
      split
      · rename_i before
        refine List.pairwise_cons.2 ⟨?_, ordered⟩
        intro entry member
        rcases List.mem_cons.1 member with same | later
        · simpa [same] using before
        · exact String.lt_trans before (above entry later)
      · split
        · rename_i after
          refine List.pairwise_cons.2 ⟨?_, step tail⟩
          intro entry member
          rcases key_of_mem_alterEntries member with same | ⟨other, inside, keyed⟩
          · simpa [same] using after
          · simpa [← keyed] using above other inside
        · exact List.pairwise_cons.2 ⟨fun entry member => above entry member, tail⟩

def alter (dictionary : Dictionary α) (key : String) (value : Option α → α) : Dictionary α :=
  ⟨alterEntries key value dictionary.entries, ascending_alterEntries dictionary.ordered⟩

def insert (dictionary : Dictionary α) (key : String) (value : α) : Dictionary α :=
  dictionary.alter key fun _ => value

/-- Collects entries in order, the last of a key winning. -/
def ofList (entries : List (String × α)) : Dictionary α :=
  entries.foldl (fun dictionary entry => dictionary.insert entry.1 entry.2) empty

def map (dictionary : Dictionary α) (f : String → α → β) : Dictionary β where
  entries := dictionary.entries.map fun entry => (entry.1, f entry.1 entry.2)
  ordered := List.pairwise_map.2 dictionary.ordered

def filter (dictionary : Dictionary α) (keep : String → α → Bool) : Dictionary α where
  entries := dictionary.entries.filter fun entry => keep entry.1 entry.2
  ordered := dictionary.ordered.sublist List.filter_sublist

@[simp] theorem entries_empty : (empty : Dictionary α).entries = [] := rfl

@[simp] theorem entries_alter (dictionary : Dictionary α) (key : String)
    (value : Option α → α) :
    (dictionary.alter key value).entries = alterEntries key value dictionary.entries := rfl

@[simp] theorem entries_map (dictionary : Dictionary α) (f : String → α → β) :
    (dictionary.map f).entries =
      dictionary.entries.map fun entry => (entry.1, f entry.1 entry.2) := rfl

@[simp] theorem entries_filter (dictionary : Dictionary α) (keep : String → α → Bool) :
    (dictionary.filter keep).entries =
      dictionary.entries.filter fun entry => keep entry.1 entry.2 := rfl

theorem valueOf?_below {key : String} {entries : List (String × α)}
    (below : ∀ entry ∈ entries, key < entry.1) : valueOf? key entries = none := by
  induction entries with
  | nil => rfl
  | cons head rest step =>
      have first := below head (by simp)
      have differs : head.1 ≠ key := fun same => String.lt_irrefl _ (same ▸ first)
      simp only [valueOf?, differs, if_false]
      exact step fun entry member => below entry (by simp [member])

theorem valueOf?_alterEntries {key : String} {value : Option α → α}
    {entries : List (String × α)} (ordered : Ascending entries) (other : String) :
    valueOf? other (alterEntries key value entries) =
      if other = key then some (value (valueOf? key entries)) else valueOf? other entries := by
  induction entries with
  | nil => by_cases same : other = key <;> simp [alterEntries, valueOf?, same, Ne.symm]
  | cons head rest step =>
      obtain ⟨present, old⟩ := head
      have tail := (List.pairwise_cons.1 ordered).2
      have above := (List.pairwise_cons.1 ordered).1
      simp only [alterEntries]
      by_cases before : key < present
      · have absent : valueOf? key ((present, old) :: rest) = none := by
          refine valueOf?_below fun entry member => ?_
          rcases List.mem_cons.1 member with same | later
          · simpa [same] using before
          · exact String.lt_trans before (above entry later)
        rw [if_pos before, absent]
        by_cases same : key = other
        · simp [valueOf?, same]
        · simp [valueOf?, same, Ne.symm same]
      · by_cases after : present < key
        · have differs : present ≠ key := fun same => String.lt_irrefl _ (same ▸ after)
          rw [if_neg before, if_pos after]
          by_cases here : present = other
          · have apart : other ≠ key := here ▸ differs
            simp [valueOf?, here, apart]
          · simp [valueOf?, here, step tail, differs]
        · have equal : present = key :=
            Std.le_antisymm (String.not_lt.1 before) (String.not_lt.1 after)
          rw [if_neg before, if_neg after]
          subst equal
          by_cases same : present = other
          · simp [valueOf?, same]
          · simp [valueOf?, same, Ne.symm same]

/-- Altering a key changes what that key holds and nothing else. -/
theorem get?_alter (dictionary : Dictionary α) (key other : String)
    (value : Option α → α) :
    (dictionary.alter key value).get? other =
      if other = key then some (value (dictionary.get? key)) else dictionary.get? other :=
  valueOf?_alterEntries dictionary.ordered other

theorem get?_insert (dictionary : Dictionary α) (key other : String) (value : α) :
    (dictionary.insert key value).get? other =
      if other = key then some value else dictionary.get? other :=
  dictionary.get?_alter key other fun _ => value

end Dictionary

end QueryGrammar
