import QueryGrammar.Proofs.Data.Entries
import QueryGrammar.Search.Run

namespace QueryGrammar

/-! The queue of a search: candidates wait under their bounds, and the one that is taken has the
lowest. -/

open Std

variable {κ : Type} [Cost κ]

section

variable [TransCmp (Cost.order : κ → κ → Ordering)]

instance : TransCmp (orderOfQueue : κ × Nat → κ × Nat → Ordering) where
  eq_swap {first second} := by
    have bounds : Cost.order first.1 second.1 = (Cost.order second.1 first.1).swap :=
      OrientedCmp.eq_swap
    have numbers : compare first.2 second.2 = (compare second.2 first.2).swap :=
      OrientedCmp.eq_swap
    simp only [orderOfQueue, Ordering.swap_then, bounds, numbers]
  isLE_trans {first second third} before after := by
    simp only [orderOfQueue, Ordering.isLE_then_iff_and] at *
    obtain ⟨lower, tie⟩ := before
    obtain ⟨lower', tie'⟩ := after
    refine ⟨TransCmp.isLE_trans lower lower', ?_⟩
    rcases tie with less | numbers
    · exact .inl (TransCmp.lt_of_lt_of_isLE less lower')
    · rcases tie' with less | numbers'
      · exact .inl (TransCmp.lt_of_isLE_of_lt lower less)
      · exact .inr (TransCmp.isLE_trans numbers numbers')

end

/-- The candidates in a queue. -/
def SearchQueue.candidates (queue : SearchQueue κ) : List (Candidate κ) :=
  queue.toList.map Prod.snd

/-- Candidates wait under their bounds, with numbers that have been given out. -/
structure SearchQueue.Numbered (queue : SearchQueue κ) (queued : Nat) : Prop where
  bound : ∀ entry ∈ queue.toList, entry.1.1 = entry.2.bound
  number : ∀ entry ∈ queue.toList, entry.1.2 < queued

namespace SearchQueue

variable {queue : SearchQueue κ} {queued : Nat} {key : κ × Nat} {candidate : Candidate κ}

theorem candidates_eq_nil (empty : queue.minEntry? = none) : queue.candidates = [] := by
  rw [minEntry?_eq_head?, List.head?_eq_none_iff] at empty
  rw [candidates, empty, List.map_nil]

variable [TransCmp (Cost.order : κ → κ → Ordering)]

theorem numbered_empty : Numbered ({} : SearchQueue κ) queued := by
  constructor <;> simp

/-- A number that has not been given out makes a new entry. -/
theorem Numbered.toList_insert (numbered : Numbered queue queued) (candidate : Candidate κ) :
    (TreeMap.insert queue (candidate.bound, queued) candidate).toList.Perm
      (((candidate.bound, queued), candidate) :: queue.toList) := by
  refine toList_insert_of_fresh fun entry member same => ?_
  have number := numbered.number entry member
  rw [orderOfQueue, Ordering.then_eq_eq, Std.compare_eq_iff_eq] at same
  omega

theorem Numbered.insert (numbered : Numbered queue queued) (candidate : Candidate κ) :
    Numbered (TreeMap.insert queue (candidate.bound, queued) candidate) (queued + 1) ∧
      (candidates (TreeMap.insert queue (candidate.bound, queued) candidate)).Perm
        (candidate :: queue.candidates) := by
  have entries := numbered.toList_insert candidate
  refine ⟨⟨fun entry member => ?_, fun entry member => ?_⟩, entries.map Prod.snd⟩
  · rcases List.mem_cons.1 (entries.mem_iff.1 member) with rfl | known
    · rfl
    · exact numbered.bound entry known
  · rcases List.mem_cons.1 (entries.mem_iff.1 member) with rfl | known
    · exact Nat.lt_succ_self _
    · exact Nat.lt_succ_of_lt (numbered.number entry known)

theorem Numbered.enqueueAll (numbered : Numbered queue queued)
    (successors : List (Candidate κ)) :
    Numbered (Search.enqueueAll successors queue queued).1
        (Search.enqueueAll successors queue queued).2 ∧
      (candidates (Search.enqueueAll successors queue queued).1).Perm
        (successors ++ queue.candidates) := by
  induction successors generalizing queue queued with
  | nil => exact ⟨numbered, .refl _⟩
  | cons first rest ih =>
      obtain ⟨inserted, added⟩ := numbered.insert first
      obtain ⟨last, others⟩ := ih inserted
      refine ⟨last, others.trans ?_⟩
      exact (added.append_left rest).trans List.perm_middle

theorem Numbered.take (numbered : Numbered queue queued)
    (first : queue.minEntry? = some (key, candidate)) :
    Numbered (TreeMap.erase queue key) queued ∧
      queue.candidates.Perm (candidate :: candidates (TreeMap.erase queue key)) ∧
      ∀ other ∈ candidates (TreeMap.erase queue key),
        (Cost.order candidate.bound other.bound).isLE := by
  obtain ⟨entries, before⟩ := minEntry?_spec first
  have known : ∀ entry ∈ (queue.erase key).toList, entry ∈ queue.toList := fun entry member =>
    entries.mem_iff.2 (List.mem_cons_of_mem _ member)
  refine ⟨⟨fun entry member => numbered.bound entry (known entry member),
    fun entry member => numbered.number entry (known entry member)⟩, entries.map Prod.snd, ?_⟩
  intro other member
  obtain ⟨entry, present, rfl⟩ := List.mem_map.1 member
  have own := numbered.bound (key, candidate) (entries.mem_iff.2 (List.mem_cons_self ..))
  have earlier := before entry present
  rw [orderOfQueue, Ordering.then_eq_lt] at earlier
  rw [← own, ← numbered.bound entry (known entry present)]
  rcases earlier with less | ⟨same, -⟩
  · simp [less]
  · simp [same]

end SearchQueue

end QueryGrammar
