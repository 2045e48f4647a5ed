import Mathlib.Data.Finset.Card
import QueryGrammar.Proofs.Edits.KnownRecipes

namespace QueryGrammar

/-! When passes over the rules come to rest.

Main statement: where sums of costs are not below what is summed up, there are enough passes for as
many symbols as have rules, and then no rule makes a cheaper recipe than the one its symbol has.
-/

variable {κ : Type}

/-- Neither the cost of a rule nor that of inserting it is negative. -/
structure Rule.Nonnegative [Cost κ] (rule : Rule κ) : Prop where
  cost : Cost.isNonnegative rule.cost = true
  insertion : ∀ cost ∈ rule.insertionCost, Cost.isNonnegative cost = true

/-- Recipes that cost nothing negative. -/
def Recipes.Nonnegative [Cost κ] (recipes : Recipes κ) : Prop :=
  ∀ symbol recipe, recipes.get? symbol = some recipe → Cost.isNonnegative recipe.cost = true

namespace Recipe

variable {recipes others : Recipes κ} {rule : Rule κ} {recipe : Recipe κ} {slot : Slot}

theorem ofSlots?_congr {slots : List Slot}
    (same : ∀ slot ∈ slots, recipes.get? slot.symbol = others.get? slot.symbol) :
    ofSlots? recipes slots = ofSlots? others slots := by
  induction slots with
  | nil => rfl
  | cons slot rest ih =>
      obtain ⟨own, later⟩ := List.forall_mem_cons.1 same
      rw [ofSlots?, ofSlots?, own, ih later]

theorem exists_child {slots : List Slot} {children : List (Slot × Recipe κ)}
    (made : ofSlots? recipes slots = some children) (member : slot ∈ slots) :
    ∃ child, (slot, child) ∈ children := by
  induction slots generalizing children with
  | nil => cases member
  | cons first rest ih =>
      simp only [ofSlots?] at made
      split at made
      · rename_i own others
        cases made
        rcases List.mem_cons.1 member with rfl | later
        · exact ⟨_, List.mem_cons_self ..⟩
        · obtain ⟨child, inside⟩ := ih others later
          exact ⟨child, List.mem_cons_of_mem _ inside⟩
      · cases made

variable [Cost κ]

/-- What a rule inserts depends on the recipes of its symbols alone. -/
theorem ofRule?_congr
    (same : ∀ slot ∈ rule.slots, recipes.get? slot.symbol = others.get? slot.symbol) :
    ofRule? recipes rule = ofRule? others rule := by
  unfold ofRule?
  cases production : rule.production with
  | literal text => rfl
  | symbols slots =>
      rw [Rule.slots_of_production production] at same
      simp only [ofSlots?_congr same]

/-- What a rule inserts costs the rule and what is inserted for its symbols. -/
theorem costs_of_ofRule? (made : ofRule? recipes rule = some recipe) :
    (rule.slots = [] ∧ (recipe.cost = rule.cost ∨
      ∃ price ∈ rule.insertionCost, recipe.cost = rule.cost + price)) ∨
    ∃ children, ofSlots? recipes rule.slots = some children ∧
      recipe.cost = rule.cost + Cost.total (children.map fun (_, child) => child.cost) := by
  unfold ofRule? at made
  split at made
  · cases made
  · split at made
    · rename_i text production
      have literal := Rule.slots_of_isLiteral (Rule.isLiteral_of_production production)
      split at made
      · cases made
        exact .inl ⟨literal, .inl rfl⟩
      · split at made
        · cases made
        · rename_i price priced
          split at made
          · cases made
          · cases made
            exact .inl ⟨literal, .inr ⟨price, priced, rfl⟩⟩
    · rename_i slots production
      split at made
      · cases made
      · rename_i children found
        simp only at made
        split at made
        · cases made
        · cases made
          exact .inr ⟨children, by rw [Rule.slots_of_production production, found], rfl⟩

theorem children_nonnegative {slots : List Slot} {children : List (Slot × Recipe κ)}
    (nonnegative : recipes.Nonnegative) (made : ofSlots? recipes slots = some children) :
    ∀ cost ∈ children.map fun (_, child) => child.cost, Cost.isNonnegative cost = true := by
  intro cost member
  obtain ⟨child, inside, rfl⟩ := List.mem_map.1 member
  exact nonnegative _ _ (get?_of_ofSlots? made child inside)

theorem isNonnegative_of_ofRule? [Cost.Additive κ] (nonnegative : recipes.Nonnegative)
    (own : rule.Nonnegative) (made : ofRule? recipes rule = some recipe) : Cost.isNonnegative recipe.cost = true := by
  rcases costs_of_ofRule? made with ⟨-, same | ⟨price, priced, same⟩⟩ | ⟨children, found, same⟩
  · rw [same]
    exact own.cost
  · rw [same]
    exact Cost.Additive.isNonnegative_add own.cost (own.insertion price priced)
  · rw [same]
    exact Cost.Additive.isNonnegative_add own.cost
      (Cost.Additive.isNonnegative_total (children_nonnegative nonnegative found))

/-- What a rule inserts is not cheaper than what is inserted for a symbol of the rule. -/
theorem exists_child_recipe [Cost.Growing κ] (nonnegative : recipes.Nonnegative)
    (own : rule.Nonnegative) (made : ofRule? recipes rule = some recipe) (member : slot ∈ rule.slots) :
    ∃ child, recipes.get? slot.symbol = some child ∧
      Cost.less recipe.cost child.cost = false := by
  rcases costs_of_ofRule? made with ⟨none, -⟩ | ⟨children, found, same⟩
  · rw [none] at member
    cases member
  · obtain ⟨child, inside⟩ := exists_child found member
    have among : child.cost ∈ children.map fun (_, child) => child.cost :=
      List.mem_map.2 ⟨_, inside, rfl⟩
    have costs := children_nonnegative nonnegative found
    have whole := Cost.Additive.isNonnegative_total costs
    refine ⟨child, get?_of_ofSlots? found _ inside, Bool.eq_false_iff.2 fun less => ?_⟩
    rw [same] at less
    rcases Cost.Growing.less_or_less (Cost.Additive.isNonnegative_add own.cost whole) whole
      (costs _ among) less with before | after
    · rw [Cost.Growing.add_not_less own.cost whole] at before
      cases before
    · rw [Cost.Growing.total_not_less costs _ among] at after
      cases after

end Recipe

namespace Recipes

variable [Cost κ] {recipes : Recipes κ} {symbols : Finset String} {symbol other : String}
  {rule : Rule κ} {recipe : Recipe κ} {cost : κ} {level top : Nat} {entry : String × Rule κ}
  {rules done : List (String × Rule κ)}

/-- The symbols that have recipes of no more than a cost. -/
def within (recipes : Recipes κ) (symbols : Finset String) (cost : κ) : Finset String :=
  symbols.filter fun symbol =>
    ((recipes.get? symbol).any fun recipe => !Cost.less cost recipe.cost) = true

theorem mem_within : symbol ∈ recipes.within symbols cost ↔ symbol ∈ symbols ∧
    ∃ recipe, recipes.get? symbol = some recipe ∧ Cost.less cost recipe.cost = false := by
  simp [within, Option.any_eq_true]

/-- A symbol that has a recipe, which so many symbols at least do not exceed. -/
def Ranks (recipes : Recipes κ) (symbols : Finset String) (level : Nat) (symbol : String) : Prop :=
  ∃ recipe, recipes.get? symbol = some recipe ∧
    level ≤ (recipes.within symbols recipe.cost).card

theorem Ranks.level_le (ranks : recipes.Ranks symbols level symbol) : level ≤ symbols.card := by
  obtain ⟨recipe, -, enough⟩ := ranks
  exact enough.trans (Finset.card_le_card (Finset.filter_subset ..))

/-- A rule that makes no better recipe than the one its symbol has. -/
def Settles (recipes : Recipes κ) (entry : String × Rule κ) : Prop :=
  ∀ recipe, Recipe.ofRule? recipes entry.2 = some recipe →
    recipes.improves entry.1 recipe = false

/-- A rule that can make a better recipe only out of one of so high a rank. -/
def Quiet (recipes : Recipes κ) (symbols : Finset String) (level : Nat)
    (entry : String × Rule κ) : Prop :=
  recipes.Settles entry ∨ level = 0 ∨
    ∃ slot ∈ entry.2.slots, recipes.Ranks symbols level slot.symbol

theorem Quiet.settles (quiet : recipes.Quiet symbols level entry) (beyond : symbols.card < level) :
    recipes.Settles entry := by
  rcases quiet with settles | zero | ⟨slot, -, ranks⟩
  · exact settles
  · omega
  · exact absurd ranks.level_le (Nat.not_le_of_lt beyond)

/-- A better recipe takes the place of what a symbol had. -/
structure Improves (recipes : Recipes κ) (symbols : Finset String) (symbol : String)
    (recipe : Recipe κ) : Prop where
  member : symbol ∈ symbols
  isNonnegative : Cost.isNonnegative recipe.cost = true
  less : ∀ present, recipes.get? symbol = some present →
    Cost.less recipe.cost present.cost = true

omit [Cost κ] in
theorem get?_insert_self : Dictionary.get? (recipes.insert symbol recipe) symbol = some recipe := by
  rw [Dictionary.get?_insert, if_pos rfl]

omit [Cost κ] in
theorem get?_insert_ne (differ : other ≠ symbol) :
    Dictionary.get? (recipes.insert symbol recipe) other = recipes.get? other := by
  rw [Dictionary.get?_insert, if_neg differ]

theorem Nonnegative.insert (nonnegative : recipes.Nonnegative)
    (improves : recipes.Improves symbols symbol recipe) :
    Nonnegative (recipes.insert symbol recipe) := by
  intro other known found
  rw [Dictionary.get?_insert] at found
  split at found
  · cases found
    exact improves.isNonnegative
  · exact nonnegative other known found

variable [Cost.Growing κ]

/-- Recipes become cheaper only, so that no symbol comes to exceed a cost. -/
theorem within_subset_insert (improves : recipes.Improves symbols symbol recipe) :
    recipes.within symbols cost ⊆ within (recipes.insert symbol recipe) symbols cost := by
  intro other inside
  obtain ⟨member, known, found, below⟩ := mem_within.1 inside
  by_cases same : other = symbol
  · subst same
    refine mem_within.2 ⟨member, recipe, get?_insert_self, Bool.eq_false_iff.2 fun less => ?_⟩
    rw [Cost.Growing.less_trans less (improves.less known found)] at below
    cases below
  · exact mem_within.2 ⟨member, known, (get?_insert_ne same).trans found, below⟩

theorem Ranks.insert (ranks : recipes.Ranks symbols level other)
    (improves : recipes.Improves symbols symbol recipe) (differ : other ≠ symbol) :
    Ranks (recipes.insert symbol recipe) symbols level other := by
  obtain ⟨known, found, enough⟩ := ranks
  exact ⟨known, (get?_insert_ne differ).trans found,
    enough.trans (Finset.card_le_card (within_subset_insert improves))⟩

omit [Cost.Growing κ] in
theorem Ranks.mono (ranks : recipes.Ranks symbols top symbol) (below : level ≤ top) :
    recipes.Ranks symbols level symbol := by
  obtain ⟨recipe, found, enough⟩ := ranks
  exact ⟨recipe, found, below.trans enough⟩

/-- A recipe that improves on what a symbol had ranks above the one that it is made of: the symbol
did not count among those that cost no more than that. -/
theorem Improves.ranks (improves : recipes.Improves symbols symbol recipe)
    (nonnegative : recipes.Nonnegative) (own : rule.Nonnegative)
    (made : Recipe.ofRule? recipes rule = some recipe)
    (quiet : recipes.Quiet symbols level (symbol, rule))
    (unsettled : ¬ recipes.Settles (symbol, rule)) :
    Ranks (recipes.insert symbol recipe) symbols (level + 1) symbol := by
  refine ⟨recipe, get?_insert_self, ?_⟩
  have counts : symbol ∈ within (recipes.insert symbol recipe) symbols recipe.cost :=
    mem_within.2 ⟨improves.member, recipe, get?_insert_self, Cost.Growing.less_irrefl recipe.cost⟩
  rcases quiet with settles | rfl | ⟨slot, member, child, found, enough⟩
  · exact absurd settles unsettled
  · exact Finset.card_pos.2 ⟨symbol, counts⟩
  · obtain ⟨childAgain, foundAgain, below⟩ :=
      Recipe.exists_child_recipe nonnegative own made member
    cases found.symm.trans foundAgain
    have childNonnegative := nonnegative _ _ found
    have between : ∀ known, Cost.isNonnegative known = true →
        Cost.less recipe.cost known = true → Cost.less child.cost known = true := by
      intro known knownNonnegative less
      rcases Cost.Growing.less_or_less improves.isNonnegative childNonnegative knownNonnegative
        less with before | after
      · rw [before] at below
        cases below
      · exact after
    have grows : recipes.within symbols child.cost ⊆
        within (recipes.insert symbol recipe) symbols recipe.cost := by
      intro other inside
      obtain ⟨among, known, foundKnown, notLess⟩ :=
        mem_within.1 (within_subset_insert improves inside)
      refine mem_within.2 ⟨among, known, foundKnown, Bool.eq_false_iff.2 fun less => ?_⟩
      have knownNonnegative := nonnegative.insert improves other known foundKnown
      rw [between known.cost knownNonnegative less] at notLess
      cases notLess
    have missing : symbol ∉ recipes.within symbols child.cost := by
      intro inside
      obtain ⟨-, present, foundPresent, notLess⟩ := mem_within.1 inside
      rw [between present.cost (nonnegative _ _ foundPresent)
        (improves.less present foundPresent)] at notLess
      cases notLess
    exact enough.trans_lt (Finset.card_lt_card
      ((Finset.ssubset_iff_of_subset grows).2 ⟨symbol, counts, missing⟩))

/-- What a rule makes of other recipes is no better than before once a recipe has improved. -/
theorem Quiet.insert (quiet : recipes.Quiet symbols level entry)
    (improves : recipes.Improves symbols symbol recipe)
    (ranks : Ranks (recipes.insert symbol recipe) symbols top symbol) (below : level ≤ top) :
    Quiet (recipes.insert symbol recipe) symbols level entry := by
  by_cases mentions : ∃ slot ∈ entry.2.slots, slot.symbol = symbol
  · obtain ⟨slot, member, rfl⟩ := mentions
    exact .inr (.inr ⟨slot, member, ranks.mono below⟩)
  · have differ : ∀ slot ∈ entry.2.slots, slot.symbol ≠ symbol :=
      fun slot member same => mentions ⟨slot, member, same⟩
    rcases quiet with settles | zero | ⟨slot, member, own⟩
    · refine .inl fun made found => ?_
      rw [Recipe.ofRule?_congr fun slot member => get?_insert_ne (differ slot member)] at found
      have settled := settles made found
      unfold Recipes.improves at settled ⊢
      by_cases same : entry.1 = symbol
      · rw [same, get?_insert_self]
        rw [same] at settled
        cases present : recipes.get? symbol with
        | none => simp [present] at settled
        | some known =>
            refine Bool.eq_false_iff.2 fun less => ?_
            simp only [present] at settled
            rw [Cost.Growing.less_trans less (improves.less known present)] at settled
            cases settled
      · rwa [get?_insert_ne same]
    · exact .inr (.inl zero)
    · exact .inr (.inr ⟨slot, member, own.insert improves (differ slot member)⟩)

/-- How a rule is taken up: what is known of all rules is kept, and the rule itself rises by a
level. -/
theorem consider_quiet (nonnegative : recipes.Nonnegative) (own : rule.Nonnegative)
    (member : symbol ∈ symbols) (quiet : recipes.Quiet symbols level (symbol, rule)) :
    (recipes.consider symbol rule).1.Nonnegative ∧
      (∀ entry lower, lower ≤ level + 1 → recipes.Quiet symbols lower entry →
        (recipes.consider symbol rule).1.Quiet symbols lower entry) ∧
      (recipes.consider symbol rule).1.Quiet symbols (level + 1) (symbol, rule) := by
  have stays : recipes.Settles (symbol, rule) → (∀ entry lower, lower ≤ level + 1 →
      recipes.Quiet symbols lower entry → recipes.Quiet symbols lower entry) ∧
      recipes.Quiet symbols (level + 1) (symbol, rule) :=
    fun settles => ⟨fun _ _ _ quiet => quiet, .inl settles⟩
  unfold consider
  cases made : Recipe.ofRule? recipes rule with
  | none =>
      obtain ⟨kept, settled⟩ := stays fun _ found => by simp [made] at found
      exact ⟨nonnegative, kept, settled⟩
  | some recipe =>
      cases better : recipes.improves symbol recipe with
      | false =>
          obtain ⟨kept, settled⟩ := stays fun _ found => by
            rw [made] at found
            cases found
            exact better
          simpa only [better, Bool.false_eq_true, if_false] using ⟨nonnegative, kept, settled⟩
      | true =>
          have improves : recipes.Improves symbols symbol recipe :=
            ⟨member, Recipe.isNonnegative_of_ofRule? nonnegative own made, fun present found => by
              simpa [Recipes.improves, found] using better⟩
          have unsettled : ¬ recipes.Settles (symbol, rule) := fun settles => by
            simp [settles recipe made] at better
          have ranks := improves.ranks nonnegative own made quiet unsettled
          simp only [better, if_true]
          refine ⟨nonnegative.insert improves,
            fun entry lower below quiet => quiet.insert improves ranks below, ?_⟩
          by_cases mentions : ∃ slot ∈ rule.slots, slot.symbol = symbol
          · obtain ⟨slot, inside, same⟩ := mentions
            exact .inr (.inr ⟨slot, inside, same ▸ ranks⟩)
          · refine .inl fun again found => ?_
            rw [Recipe.ofRule?_congr fun slot inside =>
              get?_insert_ne fun same => mentions ⟨slot, inside, same⟩, made] at found
            cases found
            simpa [Recipes.improves, get?_insert_self] using Cost.Growing.less_irrefl recipe.cost

/-- A pass raises all rules by a level. -/
theorem pass_quiet (nonnegative : recipes.Nonnegative)
    (own : ∀ entry ∈ rules, entry.1 ∈ symbols ∧ entry.2.Nonnegative)
    (before : ∀ entry ∈ done, recipes.Quiet symbols (level + 1) entry)
    (quiet : ∀ entry ∈ rules, recipes.Quiet symbols level entry) :
    (pass rules recipes).1.Nonnegative ∧
      ∀ entry ∈ done ++ rules, (pass rules recipes).1.Quiet symbols (level + 1) entry := by
  -- Rules that have been taken up are one level ahead of those that have not.
  induction rules generalizing recipes done with
  | nil => exact ⟨nonnegative, by rwa [List.append_nil]⟩
  | cons first rest ih =>
      obtain ⟨symbol, rule⟩ := first
      obtain ⟨⟨member, ruleOwn⟩, others⟩ := List.forall_mem_cons.1 own
      obtain ⟨ruleQuiet, othersQuiet⟩ := List.forall_mem_cons.1 quiet
      obtain ⟨kept, onward, settled⟩ := consider_quiet nonnegative ruleOwn member ruleQuiet
      have ahead : ∀ entry ∈ done ++ [(symbol, rule)],
          (recipes.consider symbol rule).1.Quiet symbols (level + 1) entry :=
        List.forall_mem_append.2 ⟨fun entry earlier => onward entry _ le_rfl (before entry earlier),
          List.forall_mem_singleton.2 settled⟩
      obtain ⟨last, all⟩ := ih kept others ahead
        fun entry later => onward entry _ (Nat.le_succ level) (othersQuiet entry later)
      rw [List.append_assoc, List.singleton_append] at all
      exact ⟨last, all⟩

omit [Cost.Growing κ] in
theorem settles_of_unchanged (unchanged : (pass rules recipes).2 = false) :
    ∀ entry ∈ rules, recipes.Settles entry := by
  induction rules generalizing recipes with
  | nil => simp
  | cons first rest ih =>
      obtain ⟨symbol, rule⟩ := first
      simp only [pass, Bool.or_eq_false_iff] at unchanged
      obtain ⟨own, others⟩ := unchanged
      have same := (consider_spec recipes symbol rule).1 own
      refine List.forall_mem_cons.2 ⟨fun recipe made => ?_, same ▸ ih others⟩
      rw [consider, made] at own
      cases better : recipes.improves symbol recipe with
      | false => rfl
      | true => simp [better] at own

/-- With more passes than there are symbols to be ranked, all rules settle. -/
theorem passes_settles {fuel : Nat} (nonnegative : recipes.Nonnegative)
    (own : ∀ entry ∈ rules, entry.1 ∈ symbols ∧ entry.2.Nonnegative)
    (quiet : ∀ entry ∈ rules, recipes.Quiet symbols level entry)
    (enough : symbols.card < fuel + level) :
    ∀ entry ∈ rules, (passes rules fuel recipes).Settles entry := by
  induction fuel generalizing recipes level with
  | zero => exact fun entry member => (quiet entry member).settles (by omega)
  | succ fuel ih =>
      obtain ⟨kept, ahead⟩ := pass_quiet nonnegative own (List.forall_mem_nil _) quiet
      rw [passes]
      dsimp only
      split
      · exact ih kept ahead (by omega)
      · rename_i unchanged
        have same := Bool.eq_false_iff.2 unchanged
        rw [pass_same same]
        exact settles_of_unchanged same

end Recipes

namespace Grammar

variable [Cost κ] {grammar : Grammar κ} {symbol : String} {rule : Rule κ}

theorem nonnegative_of_validate (valid : grammar.validate = .ok ())
    (member : rule ∈ grammar.rulesOf symbol) : rule.Nonnegative := by
  have checked := check_of_validate valid member
  have sound : rule.flaw? = none := by
    unfold Rule.check at checked
    split at checked
    · cases checked
    · cases checked
    · split at checked
      · cases checked
      · split at checked
        · cases checked
        · assumption
  unfold Rule.flaw? at sound
  split at sound
  · cases sound
  · rename_i cost
    split at sound
    · cases sound
    · rename_i insertion
      simp only [Bool.or_eq_true, Bool.not_eq_true', not_or, Bool.not_eq_false] at cost
      refine ⟨cost.1, fun price priced => ?_⟩
      simpa [Option.mem_def.1 priced] using insertion

/-- No rule makes a recipe that is cheaper than the one its symbol has. -/
theorem recipes_settles [Cost.Growing κ] (valid : grammar.validate = .ok ()) :
    ∀ entry ∈ grammar.allRules, grammar.recipes.Settles entry := by
  have first : ∀ entry ∈ grammar.allRules,
      Recipes.Quiet {} grammar.rules.keys.toFinset 0 entry := fun _ _ => .inr (.inl rfl)
  refine Recipes.passes_settles (by simp [Recipes.Nonnegative]) (fun entry member => ?_) first ?_
  · have known := mem_allRules.1 member
    obtain ⟨rules, found, -⟩ := mem_rulesOf.1 known
    exact ⟨List.mem_toFinset.2 (Dictionary.mem_keys_iff.2 ⟨rules, found⟩),
      nonnegative_of_validate valid known⟩
  · have most := List.toFinset_card_le grammar.rules.keys
    simp only [Dictionary.keys, List.length_map] at most
    exact Nat.lt_succ_of_le most

end Grammar

end QueryGrammar
