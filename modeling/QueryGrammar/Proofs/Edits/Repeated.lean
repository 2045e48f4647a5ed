import QueryGrammar.Proofs.Amounts.Growth
import QueryGrammar.Proofs.Edits.Settled

namespace QueryGrammar

/-! Passes over the rules, repeated for as long as they find better recipes.

Main statement: where sums of costs are not below what is summed up, the passes come to rest, whatever
cycles there are among the rules, and they leave recipes that no rule can better.
-/

variable {κ : Type} [Cost κ]

namespace Recipes

variable {recipes last : Recipes κ} {symbol : String} {rule : Rule κ}
  {rules : List (String × Rule κ)} {count fuel : Nat}

/-- So many passes are made, of which the last one finds nothing better, and leave these recipes. No
number of passes is set beforehand. -/
inductive Repeats (rules : List (String × Rule κ)) : Recipes κ → Nat → Recipes κ → Prop
  | rest {recipes : Recipes κ} : (pass rules recipes).2 = false →
      Repeats rules recipes 1 (pass rules recipes).1
  | again {recipes last : Recipes κ} {count : Nat} : (pass rules recipes).2 = true →
      Repeats rules (pass rules recipes).1 count last → Repeats rules recipes (count + 1) last

/-- Whenever passes come to rest, no rule can better what they leave. -/
theorem Repeats.settles (repeats : Repeats rules recipes count last) :
    ∀ entry ∈ rules, last.Settles entry := by
  induction repeats with
  | rest unchanged =>
      rw [pass_same unchanged]
      exact settles_of_unchanged unchanged
  | again _ _ ih => exact ih

theorem consider_of_settles (settles : recipes.Settles (symbol, rule)) :
    recipes.consider symbol rule = (recipes, false) := by
  unfold consider
  cases made : Recipe.ofRule? recipes rule with
  | none => rfl
  | some recipe => simp [settles recipe made]

theorem pass_of_settles (settles : ∀ entry ∈ rules, recipes.Settles entry) :
    pass rules recipes = (recipes, false) := by
  induction rules with
  | nil => rfl
  | cons first rest ih =>
      obtain ⟨own, others⟩ := List.forall_mem_cons.1 settles
      simp [pass, consider_of_settles own, ih others]

/-- As many passes as leave all rules settled are enough to come to rest, but for the last one, which
finds nothing. -/
theorem exists_repeats (settles : ∀ entry ∈ rules, (passes rules fuel recipes).Settles entry) :
    ∃ count ≤ fuel + 1, Repeats rules recipes count (passes rules fuel recipes) := by
  induction fuel generalizing recipes with
  | zero =>
      have still : pass rules recipes = (recipes, false) := pass_of_settles settles
      have rest : Repeats rules recipes 1 (pass rules recipes).1 := .rest (by rw [still])
      rw [still] at rest
      exact ⟨1, le_rfl, rest⟩
  | succ fuel ih =>
      rw [passes] at settles ⊢
      dsimp only at settles ⊢
      cases changed : (pass rules recipes).2 with
      | false => exact ⟨1, by omega, .rest changed⟩
      | true =>
          rw [changed, if_pos rfl] at settles
          obtain ⟨count, few, repeats⟩ := ih settles
          exact ⟨count + 1, by omega, .again changed repeats⟩

end Recipes

namespace Grammar

variable {grammar : Grammar κ}

/-- Passes over the rules of a valid grammar come to rest after no more of them than there are symbols
with rules, and two. Then no rule makes a recipe that is cheaper than the one its symbol has. -/
theorem recipes_repeats [Cost.Growing κ] (valid : grammar.validate = .ok ()) :
    ∃ count ≤ grammar.rules.size + 2,
      Recipes.Repeats grammar.allRules {} count grammar.recipes ∧
        ∀ entry ∈ grammar.allRules, grammar.recipes.Settles entry := by
  obtain ⟨count, few, repeats⟩ := Recipes.exists_repeats (recipes_settles valid)
  exact ⟨count, few, repeats, repeats.settles⟩

/-- A grammar in which two symbols are made of each other, and the first gets a cheaper recipe by way
of the second. -/
def circular : Grammar Amount where
  start := "A"
  rules := .ofList [
    ("A", [{ Rule.literal "a" with insertionCost := some (.ofNat 5) }, .symbols ["B", "C"]]),
    ("B", [.symbols ["A"], { Rule.literal "b" with insertionCost := some (.ofNat 1) }]),
    ("C", [.literal emptyLiteral])]
  concepts := {}

set_option maxRecDepth 100000 in
theorem recipes_repeats_circular : circular.validate = .ok () ∧
    ∃ count ≤ circular.rules.size + 2,
      Recipes.Repeats circular.allRules {} count circular.recipes ∧
        ∀ entry ∈ circular.allRules, circular.recipes.Settles entry := by
  have accepted : (circular.validate.toOption.any fun _ => true) = true := by decide +kernel
  obtain ⟨_, valid, -⟩ := exists_ok_of_any accepted
  exact ⟨valid, recipes_repeats valid⟩

end Grammar

end QueryGrammar
