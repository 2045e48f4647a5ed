import QueryGrammar.Proofs.Data.Prefixes
import QueryGrammar.Proofs.Search.Begin

namespace QueryGrammar

/-! Counting derivations.

Main statement: every derivation with a meaning is a result, a duplicate, or still to come from
exactly one of the candidates that wait.
-/

open Std

variable {κ : Type} [Cost κ]

namespace Search

variable {search : Search κ} {lattice : Lattice} {kindOf : String → ConceptKind}
  {InUse : Pool κ → Prop} {root id index : Nat} {limits : Limits} {before after : Progress κ}
  {candidate : Candidate κ} {steps : List Step} {node : Node}
  {lists : Finset (List Choice)} {waiting others : List (Candidate κ)}

/-- Lists of choices that some derivation begins with. -/
def Begins (search : Search κ) (root : Nat) (lists : Finset (List Choice)) : Prop :=
  ∀ choices ∈ lists, ∃ suffix tree, search.forest.Spells [root] (choices ++ suffix) [tree]

/-- How many of the lists continue the choices of candidates. -/
def totalWeight (lists : Finset (List Choice)) (waiting : List (Candidate κ)) : Nat :=
  (waiting.map fun candidate => weight lists candidate.choices.reverse).sum

omit [Cost κ] in
theorem totalWeight_perm (same : waiting.Perm others) :
    totalWeight lists waiting = totalWeight lists others :=
  (same.map _).sum_eq

omit [Cost κ] in
theorem totalWeight_append (waiting others : List (Candidate κ)) :
    totalWeight lists (waiting ++ others) =
      totalWeight lists waiting + totalWeight lists others := by
  simp [totalWeight]

theorem Takes.weights {successors : List (Candidate κ)}
    (takes : Takes limits before after candidate successors others)
    (lists : Finset (List Choice)) :
    totalWeight lists before.waiting =
        weight lists candidate.choices.reverse + totalWeight lists others ∧
      totalWeight lists after.waiting =
        totalWeight lists successors + totalWeight lists others :=
  ⟨(totalWeight_perm takes.waited).trans rfl,
    (totalWeight_perm takes.waits).trans (totalWeight_append ..)⟩

/-- What follows the choices of a candidate begins with a choice for its next node. -/
theorem next_of_stands (stands : candidate.Stands search kindOf root)
    (next : candidate.steps = .expand id :: steps)
    (found : search.forest.nodes[id]? = some node) {suffix : List Choice} {tree : Tree}
    (spells : search.forest.Spells [root] (candidate.choices.reverse ++ suffix) [tree]) :
    ∃ index rest, index < node.alternatives.length ∧ suffix = (id, index) :: rest := by
  obtain ⟨trees, below⟩ := stands.reached suffix tree spells
  rw [next] at below
  obtain - | ⟨foundAlso, chosen, -, -⟩ := below
  cases found.symm.trans foundAlso
  exact ⟨_, _, (List.getElem?_eq_some_iff.1 chosen).1, rfl⟩

theorem nothing_follows (stands : candidate.Stands search kindOf root)
    (done : candidate.steps = []) {suffix : List Choice} {tree : Tree}
    (spells : search.forest.Spells [root] (candidate.choices.reverse ++ suffix) [tree]) :
    suffix = [] := by
  obtain ⟨trees, below⟩ := stands.reached suffix tree spells
  rw [done] at below
  cases below
  rfl

theorem weight_of_next (begins : Begins search root lists)
    (stands : candidate.Stands search kindOf root) (next : candidate.steps = .expand id :: steps)
    (found : search.forest.nodes[id]? = some node) :
    weight lists candidate.choices.reverse =
      (if candidate.choices.reverse ∈ lists then 1 else 0) +
        ∑ index ∈ Finset.range node.alternatives.length,
          weight lists (candidate.choices.reverse ++ [(id, index)]) := by
  refine weight_eq_sum _ (Prod.mk_right_injective id) fun suffix member => ?_
  obtain ⟨more, tree, spells⟩ := begins _ member
  rw [List.append_assoc] at spells
  obtain ⟨index, rest, inside, split⟩ := next_of_stands stands next found spells
  cases suffix with
  | nil => exact .inl rfl
  | cons choice suffix =>
      obtain ⟨rfl, -⟩ := List.cons.inj split
      exact .inr ⟨index, suffix, inside, rfl⟩

theorem weight_of_complete (begins : Begins search root lists)
    (stands : candidate.Stands search kindOf root) (done : candidate.steps = []) :
    weight lists candidate.choices.reverse =
      if candidate.choices.reverse ∈ lists then 1 else 0 := by
  rw [weight_eq_sum 0 (Prod.mk_right_injective 0) fun suffix member => .inl ?_]
  · simp
  · obtain ⟨more, tree, spells⟩ := begins _ member
    rw [List.append_assoc] at spells
    exact (List.append_eq_nil_iff.1 (nothing_follows stands done spells)).1

/-- The lists that continue a candidate go on with its successors, but for those that are lost with
the alternatives that were dropped. -/
theorem Expands.totalWeight {alternatives : List Alternative} {successors : List (Candidate κ)}
    (expands : Expands search kindOf root candidate id steps index alternatives successors)
    (lists : Finset (List Choice)) : ∃ lost, Search.totalWeight lists successors + lost =
        ∑ offset ∈ Finset.range alternatives.length,
          weight lists (candidate.choices.reverse ++ [(id, index + offset)]) ∧
      ((∀ choices, Hopeless search root choices → weight lists choices = 0) → lost = 0) := by
  induction expands with
  | nil => exact ⟨0, rfl, fun _ => rfl⟩
  | @chosen index alternative rest successor successors succeeds _ ih =>
      obtain ⟨lost, total, none⟩ := ih
      refine ⟨lost, ?_, none⟩
      simp only [List.length_cons, Finset.sum_range_succ', Nat.add_zero]
      simp only [Nat.add_right_comm index 1, ← Nat.add_assoc] at total ⊢
      rw [← total]
      simp only [Search.totalWeight, List.map_cons, List.sum_cons, succeeds.choices,
        List.reverse_cons]
      omega
  | @dropped index alternative rest successors hopeless _ ih =>
      obtain ⟨lost, total, none⟩ := ih
      refine ⟨lost + weight lists (candidate.choices.reverse ++ [(id, index)]), ?_,
        fun zero => by rw [none zero, zero _ hopeless]⟩
      simp only [List.length_cons, Finset.sum_range_succ', Nat.add_zero]
      simp only [Nat.add_right_comm index 1, ← Nat.add_assoc] at total ⊢
      rw [← total]

/-- Lists that make up whole derivations with a meaning. -/
def Legal (search : Search κ) (root : Nat) (lists : Finset (List Choice)) : Prop :=
  ∀ choices, choices ∈ lists ↔ ∃ meaning, Means search root choices meaning

theorem Legal.begins (legal : Legal search root lists) : Begins search root lists := by
  intro choices member
  obtain ⟨meaning, tree, spells, -⟩ := (legal choices).1 member
  exact ⟨[], tree, by rwa [List.append_nil]⟩

theorem Legal.hopeless (legal : Legal search root lists) {choices : List Choice}
    (hopeless : Hopeless search root choices) : weight lists choices = 0 := by
  refine weight_eq_zero fun suffix member => ?_
  obtain ⟨meaning, tree, spells, known⟩ := (legal _).1 member
  rw [hopeless suffix tree spells] at known
  cases known

/-- Every turn keeps the number of derivations that have been or are still to be found. -/
theorem Turn.count (turn : Turn search limits kindOf root before after)
    (legal : Legal search root lists) :
    after.results.length + after.stats.duplicates + totalWeight lists after.waiting =
      before.results.length + before.stats.duplicates + totalWeight lists before.waiting := by
  cases turn with
  | @expanded candidate successors others id steps node takes stands next found expands same
      repeats =>
      obtain ⟨lost, total, none⟩ := expands.totalWeight lists
      have none := none fun choices => legal.hopeless
      have absent : candidate.choices.reverse ∉ lists := by
        intro member
        obtain ⟨meaning, tree, spells, -⟩ := (legal _).1 member
        rw [← List.append_nil candidate.choices.reverse] at spells
        obtain ⟨index, rest, -, split⟩ := next_of_stands stands next found spells
        cases split
      have own := weight_of_next legal.begins stands next found
      rw [if_neg absent, Nat.zero_add] at own
      simp only [Nat.zero_add] at total
      obtain ⟨earlier, later⟩ := takes.weights lists
      rw [same, repeats, earlier, later, own, ← total, none, Nat.add_zero]
  | @illegal candidate others tree takes stands done spells nothing same repeats =>
      have absent : candidate.choices.reverse ∉ lists := by
        intro member
        obtain ⟨meaning, again, spellsAlso, known⟩ := (legal _).1 member
        cases spells.trees_unique spellsAlso
        cases nothing.symm.trans known
      have own := weight_of_complete legal.begins stands done
      obtain ⟨earlier, later⟩ := takes.weights lists
      rw [same, repeats, earlier, later, own, if_neg absent]
      rfl
  | @found candidate others own meaning takes stands done means _ _ same repeats =>
      have weighed := weight_of_complete legal.begins stands done
      rw [if_pos ((legal _).2 ⟨own, means⟩)] at weighed
      obtain ⟨earlier, later⟩ := takes.weights lists
      rw [same, repeats, earlier, later, weighed, List.length_append, List.length_singleton]
      simp only [totalWeight, List.map_nil, List.sum_nil]
      omega
  | @repeated candidate others own first rest result duplicates takes stands done means _ split
      same _ repeats =>
      have weighed := weight_of_complete legal.begins stands done
      rw [if_pos ((legal _).2 ⟨own, means⟩)] at weighed
      obtain ⟨earlier, later⟩ := takes.weights lists
      rw [split, same, repeats, earlier, later, weighed]
      simp only [List.length_append, List.length_cons, totalWeight, List.map_nil, List.sum_nil]
      omega

/-- All lists that some derivation begins with. -/
def Beginnings (search : Search κ) (root : Nat) (lists : Finset (List Choice)) : Prop :=
  ∀ choices, choices ∈ lists ↔ ∃ suffix tree, search.forest.Spells [root] (choices ++ suffix) [tree]

theorem Beginnings.mem (beginnings : Beginnings search root lists)
    (ready : search.Ready lattice kindOf InUse) (stands : candidate.Stands search kindOf root) :
    candidate.choices.reverse ∈ lists := by
  obtain ⟨suffix, trees, below⟩ := ready.presents.exists_spells stands.inside
  obtain ⟨tree, spells, -⟩ := stands.spelled suffix trees below
  exact (beginnings _).2 ⟨suffix, tree, spells⟩

/-- Every turn uses up one of the beginnings. -/
theorem Turn.spends (turn : Turn search limits kindOf root before after)
    (ready : search.Ready lattice kindOf InUse) (beginnings : Beginnings search root lists) :
    totalWeight lists after.waiting + 1 ≤ totalWeight lists before.waiting := by
  have begins : Begins search root lists := fun choices => (beginnings choices).1
  have complete : ∀ {candidate others}, Takes limits before after candidate [] others →
      candidate.Stands search kindOf root → candidate.steps = [] →
      totalWeight lists after.waiting + 1 ≤ totalWeight lists before.waiting := by
    intro candidate others takes stands done
    have own := weight_of_complete begins stands done
    rw [if_pos (beginnings.mem ready stands)] at own
    obtain ⟨earlier, later⟩ := takes.weights lists
    rw [earlier, later, own]
    simp only [totalWeight, List.map_nil, List.sum_nil]
    omega
  cases turn with
  | expanded takes stands next found expands =>
      obtain ⟨lost, total, -⟩ := expands.totalWeight lists
      have own := weight_of_next begins stands next found
      rw [if_pos (beginnings.mem ready stands)] at own
      simp only [Nat.zero_add] at total
      obtain ⟨earlier, later⟩ := takes.weights lists
      rw [earlier, later, own, ← total]
      omega
  | illegal takes stands done => exact complete takes stands done
  | found takes stands done => exact complete takes stands done
  | repeated takes stands done => exact complete takes stands done

end Search

end QueryGrammar
