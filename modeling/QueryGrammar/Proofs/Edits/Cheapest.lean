import Mathlib.Order.Bounds.Basic
import Mathlib.Tactic.Linarith
import QueryGrammar.Proofs.Edits.Settled

namespace QueryGrammar

/-! Recipes against all the ways to produce a symbol from nothing.

Main statement: if it does not depend on how symbols are produced whether what they mean combines,
then every symbol that can be produced from nothing has a recipe, which is as cheap as can be.
-/

variable {κ : Type}

/-- What an expansion means, where every rule combines with what its symbols mean. -/
def Expansion.combined? : Expansion κ → Option (Option (Meaning κ))
  | .literal _ rule => some rule.meaning
  | .single _ rule part => do
      let inner ← part.combined?
      Recipe.combine? rule.meaning inner.toList
  | .pair _ rule left right => do
      let one ← left.combined?
      let two ← right.combined?
      Recipe.combine? rule.meaning (one.toList ++ two.toList)

namespace Grammar

/-- An expansion of a symbol that needs no input and in which everything combines. -/
structure Produces (grammar : Grammar κ) (symbol : String) (expansion : Expansion κ) : Prop where
  symbol : expansion.symbol = symbol
  admits : grammar.Admits expansion
  silent : expansion.Silent
  combines : expansion.combined?.isSome = true

/-- What it costs to produce a symbol, with the literals that are inserted. -/
def producingCosts (grammar : Grammar ℚ) (symbol : String) : Set ℚ :=
  { cost | ∃ expansion, grammar.Produces symbol expansion ∧
    cost = expansion.cost + insertionCosts expansion.literals }

/-- A symbol can be produced with a meaning. -/
def CanMean (grammar : Grammar κ) (slot : Slot) (meaning : Option (Meaning κ)) : Prop :=
  ∃ expansion, grammar.Produces slot.symbol expansion ∧ expansion.combined? = some meaning

/-- Whether a rule combines with what its symbols mean does not depend on how these are
produced. -/
def Interchangeable (grammar : Grammar κ) : Prop :=
  ∀ symbol, ∀ rule ∈ grammar.rulesOf symbol, ∀ meanings others,
    List.Forall₂ grammar.CanMean rule.slots meanings →
    List.Forall₂ grammar.CanMean rule.slots others →
    (Recipe.combine? rule.meaning (meanings.filterMap id)).isSome = true →
    (Recipe.combine? rule.meaning (others.filterMap id)).isSome = true

section

variable [Cost κ] {grammar : Grammar κ} {expansion : Expansion κ} {recipe : Recipe κ}
  {meaning : Option (Meaning κ)} {symbol : String}

theorem Inserts.combined?_eq (inserts : grammar.Inserts expansion recipe) :
    expansion.combined? = some recipe.meaning := by
  induction inserts with
  | empty | literal => rfl
  | single _ _ _ _ _ combined ih => simp [Expansion.combined?, ih, combined]
  | pair _ _ _ _ _ _ _ combined ihLeft ihRight =>
      simp [Expansion.combined?, ihLeft, ihRight, combined]

theorem Inserts.produces (inserts : grammar.Inserts expansion recipe) :
    grammar.Produces expansion.symbol expansion :=
  ⟨rfl, inserts.admits, inserts.silent, by rw [inserts.combined?_eq]; rfl⟩

theorem exists_inserts (admits : grammar.Admits expansion) (silent : expansion.Silent)
    (combines : expansion.combined? = some meaning) :
    ∃ recipe, grammar.Inserts expansion recipe ∧ recipe.meaning = meaning := by
  induction admits generalizing meaning with
  | @literal symbol rule member isLiteral =>
      cases combines
      have insertable := Expansion.silent_literal.1 silent
      obtain ⟨text, production⟩ := Rule.isLiteral_iff.1 isLiteral
      cases empty : rule.production.isEmptyLiteral with
      | true =>
          refine ⟨_, .empty member insertable.allowed ?_, rfl⟩
          simpa [production, Production.isEmptyLiteral] using empty
      | false =>
          obtain ⟨priced, role⟩ := (insertable.literal isLiteral).resolve_left (by simp [empty])
          obtain ⟨price, found⟩ := Option.isSome_iff_exists.1 priced
          exact ⟨_, .literal member insertable.allowed production empty found role, rfl⟩
  | single member slots same _ ih =>
      obtain ⟨insertable, below⟩ := Expansion.silent_single.1 silent
      obtain ⟨inner, given, combined⟩ := Option.bind_eq_some_iff.1 combines
      obtain ⟨recipe, inserts, rfl⟩ := ih below given
      exact ⟨_, .single member insertable.allowed slots same inserts combined, rfl⟩
  | pair member slots first second _ _ ihLeft ihRight =>
      obtain ⟨insertable, belowLeft, belowRight⟩ := Expansion.silent_pair.1 silent
      obtain ⟨one, givenOne, rest⟩ := Option.bind_eq_some_iff.1 combines
      obtain ⟨two, givenTwo, combined⟩ := Option.bind_eq_some_iff.1 rest
      obtain ⟨left, insertsLeft, rfl⟩ := ihLeft belowLeft givenOne
      obtain ⟨right, insertsRight, rfl⟩ := ihRight belowRight givenTwo
      exact ⟨_, .pair member insertable.allowed slots first second insertsLeft insertsRight combined,
        rfl⟩

/-- Behind every recipe is a way to produce its symbol. -/
theorem canMean_of_recipe (valid : grammar.validate = .ok ()) {slot : Slot}
    (found : grammar.recipes.get? slot.symbol = some recipe) :
    grammar.CanMean slot recipe.meaning := by
  obtain ⟨expansion, same, inserts⟩ := exists_inserts_of_recipe valid found
  exact ⟨expansion, same ▸ inserts.produces, inserts.combined?_eq⟩

omit [Cost κ] in
/-- What a symbol means where its rules agree on that. -/
theorem CanMean.eq_label {label : String → Option (Meaning κ)}
    (agree : ∀ entry ∈ grammar.allRules, ∀ meaning, Recipe.combine? entry.2.meaning
      ((entry.2.slots.map fun slot => label slot.symbol).filterMap id) = some meaning →
        meaning = label entry.1) {slot : Slot} (can : grammar.CanMean slot meaning) :
    meaning = label slot.symbol := by
  obtain ⟨expansion, ⟨same, admits, -, -⟩, combined⟩ := can
  rw [← same]
  clear same
  have combine : ∀ {symbol rule}, rule ∈ grammar.rulesOf symbol → ∀ {slots}, rule.slots = slots →
      ∀ {meaning}, Recipe.combine? rule.meaning
        ((slots.map fun slot => label slot.symbol).filterMap id) = some meaning →
      meaning = label symbol :=
    fun member _ slots _ made => agree _ (mem_allRules.2 member) _ (slots ▸ made)
  induction admits generalizing meaning with
  | @literal symbol rule member isLiteral =>
      refine combine member (Rule.slots_of_isLiteral isLiteral) ?_
      cases combined
      cases rule.meaning <;> rfl
  | @single symbol rule slot part member slots same _ ih =>
      obtain ⟨own, ofPart, made⟩ := Option.bind_eq_some_iff.1 combined
      refine combine member slots ?_
      rw [ih ofPart, same] at made
      cases given : label slot.symbol <;> simpa [given] using made
  | @pair symbol rule first second left right member slots sameLeft sameRight _ _ ihLeft ihRight =>
      obtain ⟨one, ofLeft, rest⟩ := Option.bind_eq_some_iff.1 combined
      obtain ⟨two, ofRight, made⟩ := Option.bind_eq_some_iff.1 rest
      refine combine member slots ?_
      rw [ihLeft ofLeft, ihRight ofRight, sameLeft, sameRight] at made
      cases given : label first.symbol <;> cases also : label second.symbol <;>
        simpa [given, also] using made

omit [Cost κ] in
theorem interchangeable_of_label (label : String → Option (Meaning κ))
    (agree : ∀ entry ∈ grammar.allRules, ∀ meaning, Recipe.combine? entry.2.meaning
      ((entry.2.slots.map fun slot => label slot.symbol).filterMap id) = some meaning →
        meaning = label entry.1) : grammar.Interchangeable := by
  have same : ∀ {slots meanings}, List.Forall₂ grammar.CanMean slots meanings →
      meanings = slots.map fun slot => label slot.symbol := by
    intro slots meanings can
    induction can with
    | nil => rfl
    | cons own _ ih => rw [List.map_cons, ← ih, ← own.eq_label agree]
  intro symbol rule member meanings others can also made
  rwa [same also, ← same can]

theorem canMean_of_ofSlots? (valid : grammar.validate = .ok ()) {slots : List Slot}
    {children : List (Slot × Recipe κ)}
    (found : Recipe.ofSlots? grammar.recipes slots = some children) :
    List.Forall₂ grammar.CanMean slots (children.map fun child => child.2.meaning) := by
  induction slots generalizing children with
  | nil =>
      cases found
      exact .nil
  | cons slot rest ih =>
      simp only [Recipe.ofSlots?] at found
      split at found
      · rename_i own others
        cases found
        exact .cons (canMean_of_recipe valid own) (ih others)
      · cases found

/-- A rule inserts what is inserted for its symbols, if that combines. -/
theorem exists_ofRule?_of_combine? {recipes : Recipes κ} {rule : Rule κ} {slots : List Slot}
    {children : List (Slot × Recipe κ)} (allowed : rule.noInsert = false)
    (production : rule.production = .symbols slots)
    (found : Recipe.ofSlots? recipes slots = some children)
    (combines : (Recipe.combine? rule.meaning
      ((children.map fun child => child.2.meaning).filterMap id)).isSome = true) :
    ∃ recipe, Recipe.ofRule? recipes rule = some recipe ∧
      recipe.cost = rule.cost + Cost.total (children.map fun child => child.2.cost) := by
  obtain ⟨meaning, combined⟩ := Option.isSome_iff_exists.1 combines
  rw [List.filterMap_map] at combined
  unfold Recipe.ofRule?
  rw [production]
  simp only [allowed, Bool.false_eq_true, if_false, found]
  split
  · rename_i failed
    cases combined.symm.trans failed
  · exact ⟨_, rfl, rfl⟩

end

variable {grammar : Grammar ℚ} {expansion : Expansion ℚ} {recipe : Recipe ℚ} {symbol : String}

/-- A symbol has a recipe that is no dearer than what one of its rules makes. -/
theorem exists_recipe_le (valid : grammar.validate = .ok ()) {rule : Rule ℚ}
    (member : rule ∈ grammar.rulesOf symbol)
    (made : Recipe.ofRule? grammar.recipes rule = some recipe) :
    ∃ known, grammar.recipes.get? symbol = some known ∧ known.cost ≤ recipe.cost := by
  have settled := recipes_settles valid (symbol, rule) (mem_allRules.2 member) recipe made
  unfold Recipes.improves at settled
  cases found : grammar.recipes.get? symbol with
  | none => simp [found] at settled
  | some known =>
      rw [found] at settled
      exact ⟨known, rfl, Cost.not_less_iff.1 settled⟩

theorem cost_mem_producingCosts (valid : grammar.validate = .ok ())
    (found : grammar.recipes.get? symbol = some recipe) :
    recipe.cost ∈ grammar.producingCosts symbol := by
  obtain ⟨expansion, same, inserts⟩ := exists_inserts_of_recipe valid found
  exact ⟨expansion, same ▸ inserts.produces, by rw [inserts.cost_eq, expansion.insertedCost_eq]⟩

/-- If a rule combines with anything that its symbols can mean, its own symbol has a recipe that is
no dearer than the rule with what is kept for its symbols. -/
theorem exists_recipe_le_of_slots (valid : grammar.validate = .ok ())
    (interchangeable : grammar.Interchangeable) {rule : Rule ℚ} {slots : List Slot}
    {children : List (Slot × Recipe ℚ)} {meanings : List (Option (Meaning ℚ))}
    (member : rule ∈ grammar.rulesOf symbol) (allowed : rule.noInsert = false)
    (production : rule.production = .symbols slots)
    (found : Recipe.ofSlots? grammar.recipes slots = some children)
    (can : List.Forall₂ grammar.CanMean slots meanings)
    (combines : (Recipe.combine? rule.meaning (meanings.filterMap id)).isSome = true) :
    ∃ known, grammar.recipes.get? symbol = some known ∧
      known.cost ≤ rule.cost + Cost.total (children.map fun child => child.2.cost) := by
  have slotsOf := Rule.slots_of_production production
  obtain ⟨made, making, cost⟩ := exists_ofRule?_of_combine? allowed production found
    (interchangeable symbol rule member meanings _ (slotsOf ▸ can)
      (slotsOf ▸ canMean_of_ofSlots? valid found) combines)
  obtain ⟨known, keeps, below⟩ := exists_recipe_le valid member making
  exact ⟨known, keeps, cost ▸ below⟩

/-- What is kept for a symbol costs no more than what an expansion inserts. -/
theorem Inserts.exists_recipe_le (valid : grammar.validate = .ok ())
    (interchangeable : grammar.Interchangeable) (inserts : grammar.Inserts expansion recipe) :
    ∃ known, grammar.recipes.get? expansion.symbol = some known ∧ known.cost ≤ recipe.cost := by
  induction inserts with
  | @empty symbol rule member allowed production =>
      refine Grammar.exists_recipe_le valid member ?_
      simp [Recipe.ofRule?, allowed, production]
  | @literal symbol text rule price member allowed production solid priced role =>
      refine Grammar.exists_recipe_le valid member ?_
      have proper : (text == emptyLiteral) = false := by
        simpa [production, Production.isEmptyLiteral] using solid
      simp [Recipe.ofRule?, allowed, production, proper, priced, role]
  | @single symbol rule slot part inner meaning member allowed slots same inserts combined ih =>
      obtain ⟨known, found, below⟩ := ih
      rw [same] at found
      have children : Recipe.ofSlots? grammar.recipes [slot] = some [(slot, known)] := by
        simp [Recipe.ofSlots?, found]
      have combines :
          (Recipe.combine? rule.meaning ([inner.meaning].filterMap id)).isSome = true := by
        cases given : inner.meaning <;> simp_all
      obtain ⟨kept, keeps, least⟩ := exists_recipe_le_of_slots valid interchangeable member allowed
        (Rule.production_of_slots slots) children
        (.cons ⟨part, same ▸ inserts.produces, inserts.combined?_eq⟩ .nil) combines
      refine ⟨kept, keeps, least.trans ?_⟩
      simp only [List.map_cons, List.map_nil, Cost.total_cons, Cost.total_nil]
      linarith
  | @pair symbol rule first second left right one two meaning member allowed slots sameLeft
      sameRight insertsLeft insertsRight combined ihLeft ihRight =>
      obtain ⟨knownLeft, foundLeft, belowLeft⟩ := ihLeft
      obtain ⟨knownRight, foundRight, belowRight⟩ := ihRight
      rw [sameLeft] at foundLeft
      rw [sameRight] at foundRight
      have children : Recipe.ofSlots? grammar.recipes [first, second] =
          some [(first, knownLeft), (second, knownRight)] := by
        simp [Recipe.ofSlots?, foundLeft, foundRight]
      have combines : (Recipe.combine? rule.meaning
          ([one.meaning, two.meaning].filterMap id)).isSome = true := by
        cases givenOne : one.meaning <;> cases givenTwo : two.meaning <;> simp_all
      obtain ⟨kept, keeps, least⟩ := exists_recipe_le_of_slots valid interchangeable member allowed
        (Rule.production_of_slots slots) children
        (.cons ⟨left, sameLeft ▸ insertsLeft.produces, insertsLeft.combined?_eq⟩
          (.cons ⟨right, sameRight ▸ insertsRight.produces, insertsRight.combined?_eq⟩ .nil))
        combines
      refine ⟨kept, keeps, least.trans ?_⟩
      simp only [List.map_cons, List.map_nil, Cost.total_cons, Cost.total_nil]
      linarith

/-- Where what symbols mean does not depend on how they are produced, a symbol has a recipe if and
only if it can be produced from nothing, and the recipe costs the least that this can cost. -/
theorem recipes_isLeast (valid : grammar.validate = .ok ())
    (interchangeable : grammar.Interchangeable) (symbol : String) :
    (grammar.recipes.Knows symbol ↔ (grammar.producingCosts symbol).Nonempty) ∧
      ∀ recipe, grammar.recipes.get? symbol = some recipe →
        IsLeast (grammar.producingCosts symbol) recipe.cost := by
  have least : ∀ cost ∈ grammar.producingCosts symbol, ∃ known,
      grammar.recipes.get? symbol = some known ∧ known.cost ≤ cost := by
    rintro cost ⟨expansion, produces, rfl⟩
    obtain ⟨meaning, combined⟩ := Option.isSome_iff_exists.1 produces.combines
    obtain ⟨recipe, inserts, -⟩ := exists_inserts produces.admits produces.silent combined
    obtain ⟨known, found, below⟩ := inserts.exists_recipe_le valid interchangeable
    rw [produces.symbol] at found
    rw [inserts.cost_eq, expansion.insertedCost_eq] at below
    exact ⟨known, found, below⟩
  refine ⟨⟨fun ⟨recipe, found⟩ => ⟨_, cost_mem_producingCosts valid found⟩, fun ⟨cost, produced⟩ =>
    (least cost produced).imp fun _ known => known.1⟩, fun recipe found =>
    ⟨cost_mem_producingCosts valid found, fun cost produced => ?_⟩⟩
  obtain ⟨known, foundAgain, below⟩ := least cost produced
  cases found.symm.trans foundAgain
  exact below

namespace repeating

def word : Meaning ℚ :=
  .leaf ⟨"x", 0, .argument⟩

def inner : Meaning ℚ :=
  .leaf ⟨"f", 0, .function 1 1 false false⟩

def entries : List (String × List (Rule ℚ)) :=
  [("A", [{ Rule.literal "a" with insertionCost := some 3, meaning := some word },
      { Rule.literal "b" with insertionCost := some 2, meaning := some word },
      .symbols ["A", "E"]]),
    ("D", [{ Rule.symbols ["A"] with meaning := some inner }]),
    ("E", [.literal emptyLiteral]),
    ("K", [.literal "k"]),
    ("S", [.symbols ["K", "D"]])]

theorem fill?_inner : inner.fill? [word] = some (.apply inner.concept [word]) := by
  have sorted : [word].mergeSort Meaning.isBefore = [word] := List.mergeSort_singleton _
  have coexist : (Meaning.neighboursAgree [word] && Meaning.isUniform [word]) = true := by
    decide +kernel
  have arranged : Meaning.arrange? [word] = some [word] := by
    simp only [Meaning.arrange?, sorted, coexist, if_true]
  simp only [inner, Meaning.leaf, Meaning.fill?, Meaning.application?, arranged, Meaning.concept]
  rfl

end repeating

/-- A function that is given a word, where the word can be replaced by a cheaper one, and where
nothing can be put after it any number of times. -/
def repeating : Grammar ℚ where
  start := "S"
  rules := .ofList repeating.entries
  concepts := {}

theorem repeating_interchangeable : repeating.Interchangeable := by
  have ordered : ["A", "D", "E", "K", "S"].Pairwise (· < ·) := by decide
  have entries : repeating.rules.entries = repeating.entries :=
    Dictionary.entries_ofList (List.pairwise_map.1 ordered)
  have isOpen : repeating.inner.isOpen = true := rfl
  refine interchangeable_of_label (fun symbol => if symbol = "A" then some repeating.word
    else if symbol ∈ ["D", "S"] then some (.apply repeating.inner.concept [repeating.word])
    else none) ?_
  rw [allRules, entries]
  simp [repeating.entries, Rule.literal, Rule.symbols, Rule.slots, Production.slots,
    Recipe.combine?, isOpen, repeating.fill?_inner]

set_option maxRecDepth 100000 in
theorem recipes_isLeast_repeating : repeating.validate = .ok () ∧ repeating.Interchangeable ∧
    (repeating.recipes.Knows "D" ↔ (repeating.producingCosts "D").Nonempty) ∧
    IsLeast (repeating.producingCosts "D") 2 := by
  have accepted : (repeating.validate.toOption.any fun _ => true) = true := by decide +kernel
  obtain ⟨_, valid, -⟩ := exists_ok_of_any accepted
  have made : (repeating.recipes.get? "D").any (fun recipe => decide (recipe.cost = 2)) = true := by
    decide +kernel
  obtain ⟨recipe, found, cost⟩ := (Option.any_eq_true _ _).1 made
  have least := recipes_isLeast valid repeating_interchangeable "D"
  exact ⟨valid, repeating_interchangeable, least.1, of_decide_eq_true cost ▸ least.2 recipe found⟩

namespace meaningless

def argument : Meaning ℚ :=
  .leaf ⟨"x", 0, .argument⟩

def silent : Rule ℚ :=
  { Rule.literal "e" with insertionCost := some 2 }

def last : Rule ℚ :=
  { Rule.literal "b" with insertionCost := some 1, meaning := some argument }

end meaningless

/-- A phrase of two words. The second has a meaning, and so has the first, unless the dearer of its
rules is used. -/
def meaningless : Grammar ℚ where
  start := "S"
  rules := .ofList [
    ("A", [{ Rule.literal "a" with insertionCost := some 1, meaning := some meaningless.argument },
      meaningless.silent]),
    ("B", [meaningless.last]),
    ("D", [.symbols ["A", "B"]]),
    ("K", [.literal "k"]),
    ("S", [.symbols ["K", "D"]])]
  concepts := {}

set_option maxRecDepth 100000 in
/-- The phrase can be produced from nothing, but has no recipe: the meaning of the cheaper first word
does not combine with that of the second. -/
theorem meaningless_misses_phrase : meaningless.validate = .ok () ∧
    3 ∈ meaningless.producingCosts "D" ∧ ¬ meaningless.recipes.Knows "D" := by
  have accepted : (meaningless.validate.toOption.any fun _ => true) = true := by decide +kernel
  obtain ⟨_, valid, -⟩ := exists_ok_of_any accepted
  have none : (meaningless.recipes.get? "D").isNone = true := by decide +kernel
  have plain : ∀ {rule : Rule ℚ}, rule.noInsert = false → rule.insertionCost.isSome = true →
      rule.role = .plain → rule.Insertable :=
    fun allowed priced role => ⟨allowed, fun _ => .inr ⟨priced, by simp [role]⟩⟩
  refine ⟨valid, ⟨.pair "D" (.symbols ["A", "B"]) (.literal "A" meaningless.silent)
    (.literal "B" meaningless.last), ⟨rfl, ?_, ?_, rfl⟩, ?_⟩, ?_⟩
  · have slots : (Rule.symbols ["A", "B"] : Rule ℚ).slots = [⟨"A", .none⟩, ⟨"B", .none⟩] := rfl
    refine .pair ?_ slots rfl rfl (.literal ?_ rfl) (.literal ?_ rfl) <;>
      simp [rulesOf, meaningless, Dictionary.ofList, Dictionary.get?_insert]
  · rw [Expansion.silent_pair, Expansion.silent_literal, Expansion.silent_literal]
    exact ⟨⟨rfl, fun literal => by cases literal⟩, plain rfl rfl rfl, plain rfl rfl rfl⟩
  · decide +kernel
  · rintro ⟨recipe, found⟩
    rw [found] at none
    cases none

end Grammar

end QueryGrammar
