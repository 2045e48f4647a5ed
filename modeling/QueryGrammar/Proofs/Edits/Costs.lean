import QueryGrammar.Grammar.Notation.Statement
import QueryGrammar.Proofs.Amounts.Sums
import QueryGrammar.Proofs.Edits.Offers
import QueryGrammar.Proofs.Edits.Settled

namespace QueryGrammar

/-! What rules for edits cost.

Main statement: where swapping symbols costs nothing negative, no rule of an edited grammar does, and
where amounts leave room for as many doublings as recipes are built from one another, all rules cost
finite amounts.
-/

variable {κ : Type}

/-- What a rule and the edits of it cost is within a power of two. -/
structure Rule.Within (power : ℕ) (rule : Rule Amount) : Prop where
  cost : rule.cost.Within power
  insertion : ∀ price ∈ rule.insertionCost, price.Within power
  transposition : ∀ penalty ∈ rule.transpositionCost, penalty.Within power

theorem Rule.Within.mono {rule : Rule Amount} {power more : ℕ} (within : rule.Within power)
    (below : power ≤ more) : rule.Within more :=
  ⟨within.cost.mono below, fun price priced => (within.insertion price priced).mono below,
    fun penalty priced => (within.transposition penalty priced).mono below⟩

namespace Grammar

section

variable [Cost κ] [Cost.Additive κ] {grammar edited : Grammar κ} {symbol : String} {rule : Rule κ}

theorem recipes_nonnegative (valid : grammar.validate = .ok ()) : grammar.recipes.Nonnegative :=
  fun _ _ found => recipes_induction
    (motive := fun _ recipe => Cost.isNonnegative recipe.cost = true)
    (fun _ _ _ _ member before made =>
      Recipe.isNonnegative_of_ofRule? before (nonnegative_of_validate valid member) made) found

/-- Where swapping symbols costs nothing negative, no edit does. -/
theorem withEdits_nonnegative (valid : grammar.validate = .ok ())
    (penalties : ∀ symbol, ∀ rule ∈ grammar.rulesOf symbol, ∀ penalty ∈ rule.transpositionCost,
      Cost.isNonnegative penalty = true)
    (derived : grammar.withEdits = .ok edited) (member : rule ∈ edited.rulesOf symbol) :
    Cost.isNonnegative rule.cost = true := by
  cases origin_of_withEdits derived member with
  | given own => exact (nonnegative_of_validate valid own).cost
  | omission own _ _ found =>
      exact Cost.Additive.isNonnegative_add (nonnegative_of_validate valid own).cost
        (recipes_nonnegative valid _ _ found)
  | swap own _ priced =>
      exact Cost.Additive.isNonnegative_add (nonnegative_of_validate valid own).cost
        (penalties _ _ own _ priced)

end

end Grammar

namespace Recipe

variable {recipes : Recipes κ} {rule : Rule κ}

theorem length_of_ofSlots? {slots : List Slot} {children : List (Slot × Recipe κ)}
    (made : ofSlots? recipes slots = some children) : children.length = slots.length := by
  induction slots generalizing children with
  | nil =>
      cases made
      rfl
  | cons slot rest ih =>
      simp only [ofSlots?] at made
      split at made
      · rename_i others
        cases made
        rw [List.length_cons, List.length_cons, ih others]
      · cases made

/-- What a rule inserts is within the second power of two after the one that its parts are
within. -/
theorem within_of_ofRule? {recipes : Recipes Amount} {rule : Rule Amount} {recipe : Recipe Amount}
    {most : ℕ} (last : most + 2 ≤ 1023)
    (known : ∀ symbol recipe, recipes.get? symbol = some recipe → recipe.cost.Within most)
    (own : rule.Within most) (binary : rule.slots.length ≤ 2)
    (made : ofRule? recipes rule = some recipe) : recipe.cost.Within (most + 2) := by
  rcases costs_of_ofRule? made with ⟨-, same | ⟨price, priced, same⟩⟩ | ⟨children, found, same⟩
  · rw [same]
    exact own.cost.mono (by omega)
  · rw [same]
    exact (own.cost.add (by omega) (own.insertion price priced)).mono (by omega)
  · have few : (children.map fun (_, child) => child.cost).length ≤ 2 := by
      rwa [List.length_map, length_of_ofSlots? found]
    have all : ∀ cost ∈ children.map fun (_, child) => child.cost, cost.Within most := by
      intro cost member
      obtain ⟨child, inside, rfl⟩ := List.mem_map.1 member
      exact known _ _ (get?_of_ofSlots? found child inside)
    have total := Amount.Within.mono (Amount.Within.total (by omega) all)
      (show _ ≤ most + 1 by omega)
    rw [same]
    exact (own.cost.mono (by omega)).add (by omega) total

end Recipe

namespace Recipes

variable {recipes : Recipes κ} {symbol : String} {recipe : Recipe κ}

/-- The symbols that have recipes. -/
def symbols (recipes : Recipes κ) : Finset String :=
  recipes.keys.toFinset

theorem mem_symbols : symbol ∈ recipes.symbols ↔ recipes.Knows symbol := by
  rw [symbols, List.mem_toFinset, Dictionary.mem_keys_iff, Knows]

theorem symbols_insert : symbols (recipes.insert symbol recipe) = insert symbol recipes.symbols := by
  ext other
  rw [Finset.mem_insert, mem_symbols, mem_symbols, knows_insert]

theorem card_symbols : recipes.symbols.card = recipes.size := by
  rw [symbols, List.toFinset_card_of_nodup (Dictionary.nodup_keys recipes), Dictionary.keys,
    List.length_map, Dictionary.size]

end Recipes

namespace Grammar

variable {grammar edited : Grammar Amount} {symbol : String} {rule : Rule Amount} {most : ℕ}

theorem slots_length_of_validate (valid : grammar.validate = .ok ())
    (member : rule ∈ grammar.rulesOf symbol) : rule.slots.length ≤ 2 := by
  rcases production_of_validate valid member with
    ⟨text, production⟩ | ⟨only, production⟩ | ⟨first, second, production⟩ <;>
    simp [Rule.slots, Production.slots, production]

/-- Recipes are within a power of two that leaves two doublings for each of them. -/
theorem recipes_within (valid : grammar.validate = .ok ())
    (own : ∀ symbol, ∀ rule ∈ grammar.rulesOf symbol, rule.Within most)
    (last : most + 2 * grammar.recipes.size ≤ 1023) :
    ∀ symbol recipe, grammar.recipes.get? symbol = some recipe →
      recipe.cost.Within (most + 2 * grammar.recipes.size) := by
  rw [← Recipes.card_symbols] at last ⊢
  refine Recipes.passes_induction (motive := fun recipes => most + 2 * recipes.symbols.card ≤ 1023 →
    ∀ symbol recipe, recipes.get? symbol = some recipe →
      recipe.cost.Within (most + 2 * recipes.symbols.card)) ?_ (by simp) last
  clear last
  intro recipes symbol rule recipe member known made better last
  have base := mem_allRules.1 member
  rw [Recipes.symbols_insert] at last ⊢
  have more := Finset.card_le_card (Finset.subset_insert symbol recipes.symbols)
  have before := known (by omega)
  intro other present found
  rw [Dictionary.get?_insert] at found
  split at found
  · cases found
    by_cases old : symbol ∈ recipes.symbols
    · -- A recipe that takes the place of another costs less than that.
      obtain ⟨present, found⟩ := Recipes.mem_symbols.1 old
      have nonnegative : recipes.Nonnegative := fun _ _ found => (before _ _ found).isNonnegative
      have less : Cost.less recipe.cost present.cost = true := by
        simpa [Recipes.improves, found] using better
      exact (Amount.Within.of_less (Recipe.isNonnegative_of_ofRule? nonnegative
        (nonnegative_of_validate valid base) made) less (before _ _ found)).mono (by omega)
    · rw [Finset.card_insert_of_notMem old, mul_add_one, ← add_assoc] at last ⊢
      exact Recipe.within_of_ofRule? last before ((own _ _ base).mono (by omega))
        (slots_length_of_validate valid base) made
  · exact (before other present found).mono (by omega)

/-- Where swapping symbols costs nothing negative, all rules of an edited grammar cost nothing
negative, and where costs are so far from the largest amount that every recipe could double twice
what it is made of, they cost finite amounts. -/
theorem withEdits_costs (valid : grammar.validate = .ok ())
    (derived : grammar.withEdits = .ok edited)
    (penalties : ∀ symbol, ∀ rule ∈ grammar.rulesOf symbol, ∀ penalty ∈ rule.transpositionCost,
      penalty.isNonnegative = true) :
    (∀ symbol, ∀ rule ∈ edited.rulesOf symbol, rule.cost.isNonnegative = true) ∧
      ∀ most, most + 2 * grammar.recipes.size < 1023 →
        (∀ symbol, ∀ rule ∈ grammar.rulesOf symbol, rule.Within most) →
        ∀ symbol, ∀ rule ∈ edited.rulesOf symbol, rule.cost.isFinite = true := by
  refine ⟨fun symbol rule member => withEdits_nonnegative valid penalties derived member,
    fun most room own symbol rule member => ?_⟩
  cases origin_of_withEdits derived member with
  | given given => exact (own _ _ given).cost.isFinite
  | omission given _ _ found =>
      exact (((own _ _ given).cost.mono (by omega)).add room
        (recipes_within valid own room.le _ _ found)).isFinite
  | swap given _ priced =>
      exact ((own _ _ given).cost.add (by omega) ((own _ _ given).transposition _ priced)).isFinite

set_option maxRecDepth 100000 in
theorem withEdits_costs_halves : ∃ grammar edited,
    ofText "S[cost: 0.5, transpose: 1.5] -> A B;\nA[insert: 2] -> a;\nB -> b;" = .ok grammar ∧
      grammar.validate = .ok () ∧ grammar.withEdits = .ok edited ∧
      (∀ symbol, ∀ rule ∈ grammar.rulesOf symbol, ∀ penalty ∈ rule.transpositionCost,
        penalty.isNonnegative = true) ∧
      1 + 2 * grammar.recipes.size < 1023 ∧
      (∀ symbol, ∀ rule ∈ grammar.rulesOf symbol, rule.Within 1) ∧
      (edited.rulesOf "S").length = 3 ∧
      (∀ symbol, ∀ rule ∈ edited.rulesOf symbol, rule.cost.isNonnegative = true) ∧
      ∀ symbol, ∀ rule ∈ edited.rulesOf symbol, rule.cost.isFinite = true := by
  have run : ((ofText
      "S[cost: 0.5, transpose: 1.5] -> A B;\nA[insert: 2] -> a;\nB -> b;").toOption.any fun grammar =>
        (grammar.validate.toOption.any fun _ => true) &&
          (grammar.withEdits.toOption.any fun edited =>
            decide ((edited.rulesOf "S").length = 3)) &&
          decide (1 + 2 * grammar.recipes.size < 1023 ∧
            ∀ entry ∈ grammar.allRules, entry.2.cost.Within 1 ∧
              (∀ price ∈ entry.2.insertionCost, price.Within 1) ∧
              ∀ penalty ∈ entry.2.transpositionCost, penalty.Within 1)) = true := by
    decide +kernel
  obtain ⟨grammar, read, holds⟩ := exists_ok_of_any run
  simp only [Bool.and_eq_true, decide_eq_true_eq] at holds
  obtain ⟨⟨accepted, edits⟩, room, prices⟩ := holds
  obtain ⟨_, valid, -⟩ := exists_ok_of_any accepted
  obtain ⟨edited, derived, three⟩ := exists_ok_of_any edits
  have own : ∀ symbol, ∀ rule ∈ grammar.rulesOf symbol, rule.Within 1 := by
    intro symbol rule member
    obtain ⟨cost, insertion, transposition⟩ := prices (symbol, rule) (mem_allRules.2 member)
    exact ⟨cost, insertion, transposition⟩
  have penalties : ∀ symbol, ∀ rule ∈ grammar.rulesOf symbol, ∀ penalty ∈ rule.transpositionCost,
      penalty.isNonnegative = true := fun symbol rule member penalty priced =>
    ((own symbol rule member).transposition penalty priced).isNonnegative
  obtain ⟨nonnegative, finite⟩ := withEdits_costs valid derived penalties
  exact ⟨grammar, edited, read, valid, derived, penalties, room, own, of_decide_eq_true three,
    nonnegative, finite 1 room own⟩

set_option maxRecDepth 100000 in
/-- It is not checked what swapping symbols costs, so that a rule may come to cost less than
nothing. -/
theorem withEdits_costs_negative : ∃ grammar edited,
    ofText "S[transpose: -1] -> A B;\nA -> a;\nB -> b;" = .ok grammar ∧
      grammar.validate = .ok () ∧ grammar.withEdits = .ok edited ∧
      ∃ rule ∈ edited.rulesOf "S", rule.cost.isNonnegative = false := by
  have run : ((ofText "S[transpose: -1] -> A B;\nA -> a;\nB -> b;").toOption.any fun grammar =>
      (grammar.validate.toOption.any fun _ => true) &&
        grammar.withEdits.toOption.any fun edited =>
          (edited.rulesOf "S").any fun rule => !rule.cost.isNonnegative) = true := by
    decide +kernel
  obtain ⟨grammar, read, holds⟩ := exists_ok_of_any run
  rw [Bool.and_eq_true] at holds
  obtain ⟨_, valid, -⟩ := exists_ok_of_any holds.1
  obtain ⟨edited, derived, below⟩ := exists_ok_of_any holds.2
  obtain ⟨rule, member, negative⟩ := List.any_eq_true.1 below
  exact ⟨grammar, edited, read, valid, derived, rule, member, by simpa using negative⟩

end Grammar

end QueryGrammar
