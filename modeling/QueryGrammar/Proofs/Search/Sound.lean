import Mathlib.Data.List.Pairwise
import QueryGrammar.Proofs.Search.Begin

namespace QueryGrammar

/-! What a search finds.

Main statement: results and their duplicates are trees at the root with the costs and meanings that
they are said to have.
-/

open Std

variable {κ : Type} [Cost κ]

/-- Choices are those of a tree at the root that has the cost and the meaning. -/
def Forest.Realizes (forest : Forest) (table : Table κ) (root : Nat) (choices : List Choice)
    (cost : κ) (meaning : Interpretation κ) : Prop :=
  ∃ tree own, forest.Spells [root] choices [tree] ∧
    Tree.ofChoices forest choices = .ok (some tree) ∧ tree.preorderCost table = .ok cost ∧
    tree.interpretation? table forest = some own ∧ own.costless = meaning.costless

/-- A result is what it is said to be, and its duplicates have its meaning. -/
structure Forest.Confirms (forest : Forest) (table : Table κ) (root : Nat)
    (result : Derivation κ) : Prop where
  own : forest.Realizes table root result.choices result.cost result.meaning
  duplicates : ∀ duplicate ∈ result.duplicates,
    forest.Realizes table root duplicate.choices duplicate.cost result.meaning

abbrev Distinct (results : List (Derivation κ)) : Prop :=
  results.Pairwise fun first second => (first.meaning == second.meaning) = false

omit [Cost κ] in
theorem Distinct.eq {results : List (Derivation κ)} {first second : Derivation κ}
    (distinct : Distinct results) (member : first ∈ results) (also : second ∈ results)
    (same : first.meaning.costless = second.meaning.costless) : first = second := by
  by_contra apart
  have symmetric : Std.Symm fun first second : Derivation κ =>
      (first.meaning == second.meaning) = false :=
    ⟨fun first second => (Interpretation.beq_comm second.meaning first.meaning).trans⟩
  have different := distinct.forall member also apart
  rw [Interpretation.beq_of_costless same] at different
  cases different

namespace Search

variable {search : Search κ} {kindOf : String → ConceptKind} {root : Nat} {limits : Limits}
  {before after : Progress κ} {choices : List Choice} {cost : κ} {tree : Tree}
  {own meaning : Interpretation κ}

theorem Costs.preorderCost (costs : search.Costs choices cost)
    (spells : search.forest.Spells [root] choices [tree]) :
    tree.preorderCost search.table = .ok cost := by
  obtain ⟨rules, same, total⟩ := costs
  have named := Tree.rules_of_spells spells
  rw [same] at named
  have rulesOfTree : rules = Tree.rulesAll [tree] := List.map_injective_iff.2
    (Option.some_injective _) named
  simp only [Tree.rulesAll, List.append_nil] at rulesOfTree
  rw [Tree.preorderCost, ← rulesOfTree, total]

theorem costs_of_spells (spells : search.forest.Spells [root] choices [tree])
    (total : tree.preorderCost search.table = .ok cost) : search.Costs choices cost :=
  ⟨tree.rules, by simpa [Tree.rulesAll] using Tree.rules_of_spells spells, total⟩

theorem Means.realizes (means : Means search root choices own) (costs : search.Costs choices cost)
    (same : own.costless = meaning.costless) :
    search.forest.Realizes search.table root choices cost meaning := by
  obtain ⟨tree, spells, known⟩ := means
  exact ⟨tree, own, spells, spells.ofChoices, costs.preorderCost spells, known, same⟩

theorem Turn.confirms (turn : Turn search limits kindOf root before after)
    (confirmed : ∀ result ∈ before.results, search.forest.Confirms search.table root result) :
    ∀ result ∈ after.results, search.forest.Confirms search.table root result := by
  cases turn with
  | expanded _ _ _ _ _ same => rwa [same]
  | illegal _ _ _ _ _ same => rwa [same]
  | found takes stands _ means alike _ same =>
      intro result member
      rw [same] at member
      rcases List.mem_append.1 member with earlier | last
      · exact confirmed result earlier
      · rw [List.mem_singleton.1 last]
        exact ⟨means.realizes stands.cost alike, by simp⟩
  | @repeated candidate others own first rest repeated duplicates takes stands _ means alike split
      same only =>
      have known := confirmed repeated (by simp [split])
      intro result member
      rw [same] at member
      rcases List.mem_append.1 member with earlier | later
      · exact confirmed result (by simp [split, earlier])
      · rcases List.mem_cons.1 later with rfl | later
        · refine ⟨known.own, fun duplicate listed => ?_⟩
          rcases List.mem_append.1 listed with recorded | added
          · exact known.duplicates duplicate recorded
          · rw [only duplicate added]
            exact means.realizes stands.cost alike
        · exact confirmed result (by simp [split, later])

theorem Turn.distinct (turn : Turn search limits kindOf root before after)
    (distinct : Distinct before.results) : Distinct after.results := by
  cases turn with
  | expanded _ _ _ _ _ same => rwa [same]
  | illegal _ _ _ _ _ same => rwa [same]
  | found _ _ _ _ _ fresh same =>
      rw [same]
      refine List.pairwise_append.2 ⟨distinct, List.pairwise_singleton .., ?_⟩
      intro first earlier second last
      rw [List.mem_singleton.1 last]
      exact fresh first earlier
  | repeated _ _ _ _ _ split same =>
      rw [split] at distinct
      rw [same]
      simpa [Distinct, List.pairwise_append] using distinct

theorem Concludes.results {InUse : Pool κ → Prop} {final : Progress κ}
    (concludes : search.Concludes limits kindOf InUse root final) :
    final.results.length ≤ limits.results ∧ Distinct final.results ∧
      ∀ result ∈ final.results, search.forest.Confirms search.table root result := by
  obtain ⟨last, turns, -, ends⟩ := concludes
  have same : final.results = last.results := by
    rcases ends with ⟨rfl, -⟩ | ⟨rfl, -⟩ <;> rfl
  rw [same]
  clear ends same
  induction turns with
  | refl => exact ⟨Nat.zero_le _, .nil, by simp [firstProgress, emptyProgress]⟩
  | tail _ turn ih =>
      exact ⟨turn.length_le, turn.distinct ih.2.1, turn.confirms ih.2.2⟩

end Search

/-- A search of the forest of a query succeeds, with at most as many results as wanted. They have
different meanings, and they are all that they are said to be. -/
theorem Forest.Parsed.search_confirms [TransCmp (Cost.order : κ → κ → Ordering)]
    {grammar : Grammar κ} {gazetteer : Gazetteer} {query : String} {table : Table κ}
    {lattice : Lattice} {forest : Forest}
    (parsed : forest.Parsed grammar gazetteer query table lattice) (limits : Limits) :
    ∃ root results stats, forest.root = some root ∧
      forest.search table limits = .ok (results, stats) ∧
      results.length ≤ limits.results ∧ Distinct results ∧
      ∀ result ∈ results, forest.Confirms table root result := by
  obtain ⟨search, kindOf, root, rfl, rfl, -, -, top, -, runs⟩ := parsed.search_spec
  obtain ⟨final, searching, outcome⟩ := runs limits
  refine ⟨root, _, _, top, searching, ?_⟩
  have sorted := List.mergeSort_perm final.results Search.isCheaper
  rcases outcome with ⟨-, rfl⟩ | ⟨-, concludes⟩
  · simp [Search.emptyProgress, Distinct]
  · obtain ⟨few, distinct, confirmed⟩ := concludes.results
    refine ⟨sorted.length_eq ▸ few, ?_, fun result member => confirmed result
      (sorted.mem_iff.1 member)⟩
    exact (sorted.pairwise_iff fun {first second} apart =>
      (Interpretation.beq_comm second.meaning first.meaning).trans apart).2 distinct

end QueryGrammar
