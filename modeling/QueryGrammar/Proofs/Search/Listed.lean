import Mathlib.Data.List.Sort
import QueryGrammar.Parse.Stack
import QueryGrammar.Proofs.Grammar.Rules
import QueryGrammar.Proofs.Search.Turn
import QueryGrammar.Table.Compile

namespace QueryGrammar

/-! Searches as they can be evaluated.

Main statement: exploring does the same if the queue is listed to find its first candidate.  The
alternatives in the forest can be put in order by insertion.
-/

open Std

variable {κ : Type} [Cost κ]

namespace Search

variable {search : Search κ} {limits : Limits} {before : Progress κ} {candidate : Candidate κ}
  {key : κ × Nat}

/-- What follows once a candidate has been taken from the queue. -/
theorem explore_next {left : Nat} (first : before.queue.minEntry? = some (key, candidate))
    (calm : limits.interrupted before.stats.expansions = false) :
    search.explore limits (left + 1) before = match candidate.steps with
      | .expand id :: steps => do
          let after ← search.proceed (taken before key) candidate id steps
          search.explore limits left after
      | .close :: _ => search.explore limits left (taken before key)
      | [] =>
          let after := search.complete limits (taken before key) candidate
          if after.results.length = limits.results then .ok after
          else search.explore limits left after := by
  rw [explore]
  simp only [first, calm, Bool.false_eq_true, if_false]
  rfl

/-- Exploring as it can be evaluated: the queue is listed to find its first candidate. -/
def exploreListed (search : Search κ) (limits : Limits) :
    Nat → Progress κ → Except Fault (Progress κ)
  | 0, progress => .ok (if progress.queue.toList.isEmpty then progress else stopped progress)
  | left + 1, progress =>
      match progress.queue.toList with
      | [] => .ok progress
      | (key, candidate) :: _ =>
          if limits.interrupted progress.stats.expansions then .ok (stopped progress)
          else match candidate.steps with
            | .expand id :: steps => do
                let after ← search.proceed (taken progress key) candidate id steps
                search.exploreListed limits left after
            | .close :: _ => search.exploreListed limits left (taken progress key)
            | [] =>
                let after := search.complete limits (taken progress key) candidate
                if after.results.length = limits.results then .ok after
                else search.exploreListed limits left after

theorem exploreListed_eq (left : Nat) (progress : Progress κ) :
    search.exploreListed limits left progress = search.explore limits left progress := by
  induction left generalizing progress with
  | zero =>
      have first := minEntry?_eq_head? progress.queue
      rw [exploreListed]
      cases listed : progress.queue.toList with
      | nil =>
          rw [listed, List.head?_nil] at first
          rw [explore_idle 0 first]
          rfl
      | cons entry rest =>
          rw [listed, List.head?_cons] at first
          rw [explore_stopped first (.inl rfl)]
          rfl
  | succ left ih =>
      have first := minEntry?_eq_head? progress.queue
      rw [exploreListed]
      cases listed : progress.queue.toList with
      | nil =>
          rw [listed, List.head?_nil] at first
          rw [explore_idle _ first]
      | cons entry rest =>
          rw [listed, List.head?_cons] at first
          cases calm : limits.interrupted progress.stats.expansions with
          | true =>
              rw [explore_stopped first (.inr calm)]
              rfl
          | false =>
              rw [explore_next first calm]
              simp only [Bool.false_eq_true, if_false, ih]

theorem sharing_eq_ok {share : Sharing κ} {table : Table κ} {forest : Forest} :
    sharing share table forest = .ok search ↔
      ∃ costs, forest.cheapest table = .ok costs ∧ search = ⟨table, forest, costs, share⟩ := by
  unfold sharing
  cases forest.cheapest table with
  | error cause => simp [bind, Except.bind]
  | ok costs => simp [bind, Except.bind, eq_comm]

/-- Whether a search comes to an end as described. -/
def concludes (share : Sharing κ) (table : Table κ) (forest : Forest) (limits : Limits)
    (holds : Progress κ → Bool) : Bool :=
  limits.results != 0 && forest.root.any fun root =>
    (sharing share table forest).toOption.any fun search =>
      (search.cheapestOf root).toOption.any fun bound =>
        (search.exploreListed limits limits.maxExpansions (firstProgress root bound)).toOption.any
          holds

theorem run_of_concludes {share : Sharing κ} {table : Table κ} {forest : Forest}
    {holds : Progress κ → Bool} (ends : concludes share table forest limits holds = true) :
    ∃ final, (do
        let search ← sharing share table forest
        search.run limits) = .ok (final.results.mergeSort isCheaper, final.stats) ∧
      holds final = true := by
  rw [concludes, Bool.and_eq_true, bne_iff_ne, Option.any_eq_true] at ends
  obtain ⟨wanted, root, top, ends⟩ := ends
  obtain ⟨search, making, ends⟩ := exists_ok_of_any ends
  obtain ⟨bound, lowest, ends⟩ := exists_ok_of_any ends
  obtain ⟨final, explored, holds⟩ := exists_ok_of_any ends
  obtain ⟨costs, -, rfl⟩ := sharing_eq_ok.1 making
  rw [exploreListed_eq] at explored
  refine ⟨final, ?_, holds⟩
  simp only [making, run, discover, top, wanted, if_false, lowest, explored, bind, Except.bind]

end Search

section

variable {α : Type} {le : α → α → Bool} {value : α} {front back : List α}

theorem orderedInsert_append (front_before : ∀ other ∈ front, le value other = false)
    (back_after : ∀ other ∈ back, le value other = true) :
    (front ++ back).orderedInsert (fun first second => le first second = true) value =
      front ++ value :: back := by
  induction front with
  | nil =>
      cases back with
      | nil => rfl
      | cons other back =>
          have least := back_after other (List.mem_cons_self ..)
          rw [List.nil_append, List.orderedInsert_cons, if_pos least, List.nil_append]
  | cons other front ih =>
      obtain ⟨first, rest⟩ := List.forall_mem_cons.1 front_before
      rw [List.cons_append, List.orderedInsert_cons, if_neg (by simp [first]), ih rest,
        List.cons_append]

/-- Insertion puts a list in the same order as merging, as neither moves equals. -/
theorem mergeSort_eq_insertionSort
    (trans : ∀ first second third, le first second = true → le second third = true →
      le first third = true)
    (total : ∀ first second, (le first second || le second first) = true) (values : List α) :
    values.mergeSort le = values.insertionSort fun first second => le first second = true := by
  induction values with
  | nil => simp
  | cons value rest ih =>
      obtain ⟨front, back, whole, part, before⟩ := List.mergeSort_cons trans total value rest
      have ordered := List.pairwise_mergeSort trans total (value :: rest)
      rw [whole] at ordered
      have after := (List.pairwise_cons.1 (List.pairwise_append.1 ordered).2.1).1
      rw [List.insertionSort_cons, ← ih, whole, part, orderedInsert_append _ after]
      exact fun other member => by simpa using before other member

end

theorem Alternative.isBefore_iff {first second : Alternative} : first.isBefore second = true ↔
    (compareLex (compareOn rule) (compareOn children) first second).isLE := by
  rw [isBefore, Ordering.isLE_iff_ne_gt, bne_iff_ne]
  rfl

namespace Forest

/-- Puts the alternatives of every node into order as it can be evaluated. -/
def insertionSorted (forest : Forest) : Forest :=
  { forest with nodes := forest.nodes.map fun node =>
      { node with alternatives := node.alternatives.insertionSort fun first second =>
          first.isBefore second = true } }

theorem insertionSorted_eq (forest : Forest) : forest.insertionSorted = forest.sorted := by
  have same : ∀ alternatives : List Alternative, alternatives.mergeSort Alternative.isBefore =
      alternatives.insertionSort fun first second => first.isBefore second = true := by
    refine mergeSort_eq_insertionSort (fun first second third => ?_) fun first second => ?_
    · simp only [Alternative.isBefore_iff]
      exact TransCmp.isLE_trans
    · rw [Bool.or_eq_true, Alternative.isBefore_iff, Alternative.isBefore_iff]
      cases order : compareLex (compareOn Alternative.rule) (compareOn Alternative.children) first
        second with
      | gt => simp [OrientedCmp.lt_of_gt order]
      | lt | eq => exact .inl rfl
  simp only [insertionSorted, sorted, same]

omit [Cost κ] in
theorem eq_insertionSorted {table : Table κ} {lattice : Lattice} {forest recognized : Forest}
    (recognizing : Forest.recognized table lattice = .ok recognized)
    (made : ofLattice table lattice = .ok (.ok forest)) : forest = recognized.insertionSorted := by
  simp only [ofLattice, recognizing, bind, Except.bind] at made
  split at made
  · cases made
  · exact (Except.ok.inj (Except.ok.inj made)).symm.trans (insertionSorted_eq recognized).symm

end Forest

/-- Whether a search of the forest of a query comes to an end as described. -/
def Grammar.finds (grammar : Grammar κ) (gazetteer : Gazetteer) (query : String) (limits : Limits)
    (holds : Progress κ → Bool) : Bool :=
  (Table.compile grammar).toOption.any fun table =>
    (Lattice.ofQuery table gazetteer query).toOption.any fun lattice =>
      (Forest.recognized table lattice).toOption.any fun forest =>
        Search.concludes Pool.intern table forest.insertionSorted limits holds

theorem Grammar.search_of_finds {grammar : Grammar κ} {gazetteer : Gazetteer} {query : String}
    {limits : Limits} {holds : Progress κ → Bool} {table : Table κ} {lattice : Lattice}
    {forest : Forest} (finds : grammar.finds gazetteer query limits holds = true)
    (compiled : Table.compile grammar = .ok table)
    (read : Lattice.ofQuery table gazetteer query = .ok lattice)
    (made : Forest.ofLattice table lattice = .ok (.ok forest)) : ∃ final,
      forest.search table limits = .ok (final.results.mergeSort Search.isCheaper, final.stats) ∧
        holds final = true := by
  obtain ⟨tableAgain, compiledAgain, reads⟩ := exists_ok_of_any finds
  cases compiled.symm.trans compiledAgain
  obtain ⟨latticeAgain, readAgain, parses⟩ := exists_ok_of_any reads
  cases read.symm.trans readAgain
  obtain ⟨recognized, recognizing, ends⟩ := exists_ok_of_any parses
  rw [← Forest.eq_insertionSorted recognizing made] at ends
  exact Search.run_of_concludes ends

end QueryGrammar
