import QueryGrammar.Proofs.Forest.Spelling
import QueryGrammar.Proofs.Tree.Meaning

namespace QueryGrammar

/-! Trees from their choices.

Main statement: choices that spell a tree are built into that tree and into no other.
-/

namespace Forest

variable {forest : Forest} {nodes : List Nat} {choices others rest more : List Choice}
  {trees treesAlso : List Tree} {tree other : Tree} {root fuel : Nat}

theorem Spells.buildAll (spells : forest.Spells nodes choices trees) (fuel : Nat)
    (enough : choices.length ≤ fuel) (rest : List Choice) :
    Tree.buildAll (Tree.build forest fuel) nodes (choices ++ rest) =
      .ok (some (trees, rest)) := by
  induction spells generalizing fuel rest with
  | nil => rfl
  | @node id index node alternative nodes inner outer parts trees found chosen _ _ ihInner
      ihOuter =>
      simp only [List.length_cons, List.length_append] at enough
      obtain ⟨fuel, rfl⟩ := Nat.exists_eq_succ_of_ne_zero (n := fuel) (by omega)
      have nodeFound : forest.nodeAt id = .ok node := by
        simp [nodeAt, Fault.lookUp, found]
      have inside := ihInner fuel (by omega) (outer ++ rest)
      have after := ihOuter (fuel + 1) (by omega) rest
      have first : Tree.build forest (fuel + 1) id
          ((id, index) :: (inner ++ (outer ++ rest))) =
            .ok (some (node.tree id alternative parts, outer ++ rest)) := by
        cases alternative with
        | terminal rule hit =>
            simp only [Alternative.children, Tree.buildAll, Except.ok.injEq, Option.some.injEq,
              Prod.mk.injEq] at inside
            obtain ⟨rfl, nothing⟩ := inside
            simp [Tree.build, nodeFound, chosen, nothing, Node.tree, bind, Except.bind]
        | branch rule children =>
            simp only [Alternative.children] at inside
            simp [Tree.build, nodeFound, chosen, inside, Node.tree, bind, Except.bind]
      simp only [List.cons_append, List.append_assoc, Tree.buildAll, first, bind, Except.bind]
      simp only [Nat.succ_eq_add_one] at after ⊢
      rw [after]

/-- What is spelled first settles the trees and what is left. -/
theorem Spells.unique_append (spells : forest.Spells nodes choices trees)
    (also : forest.Spells nodes others treesAlso) (same : choices ++ rest = others ++ more) :
    trees = treesAlso ∧ choices = others ∧ rest = more := by
  have built := spells.buildAll _ (Nat.le_max_left choices.length others.length) rest
  have builtAlso := also.buildAll _ (Nat.le_max_right choices.length others.length) more
  rw [same, builtAlso] at built
  simp only [Except.ok.injEq, Option.some.injEq, Prod.mk.injEq] at built
  obtain ⟨rfl, rfl⟩ := built
  exact ⟨rfl, List.append_cancel_right same, rfl⟩

theorem Spells.trees_unique (spells : forest.Spells nodes choices trees)
    (also : forest.Spells nodes choices treesAlso) : trees = treesAlso := by
  have same : choices ++ [] = choices ++ ([] : List Choice) := rfl
  exact (spells.unique_append also same).1

theorem Spells.ofChoices (spells : forest.Spells [root] choices [tree]) :
    Tree.ofChoices forest choices = .ok (some tree) := by
  have built := spells.buildAll _ (Nat.le_refl _) []
  obtain ⟨node, index, alternative, inner, parts, -, -, -, rfl, -⟩ := spells_one.1 spells
  rw [List.append_nil] at built
  unfold Tree.ofChoices
  simp only [Tree.buildAll, bind, Except.bind] at built ⊢
  split at built
  · cases built
  · rename_i outcome first
    cases outcome with
    | none => cases built
    | some outcome =>
        obtain ⟨own, left⟩ := outcome
        cases built
        rw [first]

theorem Spells.branches (spells : forest.Spells nodes choices trees) :
    ∀ tree ∈ trees, ∃ id rule span children, tree = .branch id rule span children := by
  induction spells with
  | nil => exact fun tree member => absurd member (List.not_mem_nil)
  | @node id index node alternative _ _ _ parts _ _ _ _ _ _ ihOuter =>
      intro tree member
      rcases List.mem_cons.1 member with rfl | member
      · cases alternative <;> exact ⟨_, _, _, _, rfl⟩
      · exact ihOuter tree member

end Forest

namespace Tree

def ruleOf? (forest : Forest) (choice : Choice) : Option Nat :=
  match forest.nodes[choice.1]? with
  | some node => (node.alternatives[choice.2]?).map Alternative.rule
  | none => none

/-- Choices in pre-order name the rules of the tree they spell. -/
theorem rules_of_spells {forest : Forest} {nodes : List Nat} {choices : List Choice}
    {trees : List Tree} (spells : forest.Spells nodes choices trees) :
    choices.map (ruleOf? forest) = (rulesAll trees).map some := by
  induction spells with
  | nil => rfl
  | @node id index node alternative _ _ _ parts _ found chosen inner _ ihInner ihOuter =>
      have own : ruleOf? forest (id, index) = some alternative.rule := by
        simp [ruleOf?, found, chosen]
      simp only [List.map_cons, List.map_append, own, ihInner, ihOuter, rulesAll]
      cases alternative with
      | terminal rule hit =>
          cases inner
          simp [Node.tree, rules, rulesAll, Alternative.rule]
      | branch rule children => simp [Node.tree, rules, Alternative.rule]

end Tree

end QueryGrammar
