import Mathlib.Data.List.Forall2
import Mathlib.Tactic.Ring
import QueryGrammar.Edits.Recipe
import QueryGrammar.Proofs.Costs
import QueryGrammar.Proofs.Grammar.Expansion

namespace QueryGrammar

/-! What recipes stand for: expansions without any input.

Main statement: a recipe costs what some expansion costs, with the literals that are inserted in it.
-/

variable {κ : Type}

/-- A rule that may be used to produce a symbol from nothing. -/
structure Rule.Insertable (rule : Rule κ) : Prop where
  allowed : rule.noInsert = false
  literal : rule.isLiteral = true → rule.production.isEmptyLiteral = true ∨
    rule.insertionCost.isSome = true ∧ rule.role ≠ .placeholder

/-- An expansion that needs no input. -/
def Expansion.Silent (expansion : Expansion κ) : Prop :=
  ∀ rule ∈ expansion.rules, rule.Insertable

namespace Expansion

variable {symbol : String} {rule : Rule κ} {part left right : Expansion κ}

@[simp] theorem silent_literal : (literal symbol rule).Silent ↔ rule.Insertable := by
  simp [Silent, rules]

@[simp] theorem silent_single : (single symbol rule part).Silent ↔
    rule.Insertable ∧ part.Silent := by
  simp [Silent, rules]

@[simp] theorem silent_pair : (pair symbol rule left right).Silent ↔
    rule.Insertable ∧ left.Silent ∧ right.Silent := by
  simp [Silent, rules, or_imp, forall_and]

/-- What an expansion costs where its literals are put in, summed up like the costs of recipes. -/
def insertedCost [Cost κ] : Expansion κ → κ
  | .literal _ rule =>
      if rule.production.isEmptyLiteral then rule.cost
      else (rule.insertionCost.map (rule.cost + ·)).getD rule.cost
  | .single _ rule part => rule.cost + Cost.total [part.insertedCost]
  | .pair _ rule left right => rule.cost + Cost.total [left.insertedCost, right.insertedCost]

end Expansion

/-- What it costs to insert literals. The empty literal takes no inserting. -/
def insertionCosts (rules : List (Rule ℚ)) : ℚ :=
  Cost.total ((rules.filter fun rule => !rule.production.isEmptyLiteral).map
    fun rule => rule.insertionCost.getD 0)

@[simp] theorem insertionCosts_singleton (rule : Rule ℚ) : insertionCosts [rule] =
    if rule.production.isEmptyLiteral then 0 else rule.insertionCost.getD 0 := by
  cases empty : rule.production.isEmptyLiteral <;>
    simp [insertionCosts, empty, Cost.total_cons, Cost.total_nil]

@[simp] theorem insertionCosts_append (rules others : List (Rule ℚ)) :
    insertionCosts (rules ++ others) = insertionCosts rules + insertionCosts others := by
  simp [insertionCosts, Cost.total_append]

theorem Expansion.insertedCost_eq (expansion : Expansion ℚ) :
    expansion.insertedCost = expansion.cost + insertionCosts expansion.literals := by
  induction expansion with
  | literal symbol rule =>
      cases empty : rule.production.isEmptyLiteral <;> cases priced : rule.insertionCost <;>
        simp [insertedCost, cost, literals, empty, priced]
  | single symbol rule part ih =>
      rw [insertedCost, ih, Cost.total_cons, Cost.total_nil, cost, literals]
      ring
  | pair symbol rule left right ihLeft ihRight =>
      rw [insertedCost, ihLeft, ihRight, Cost.total_cons, Cost.total_cons, Cost.total_nil, cost,
        literals, insertionCosts_append]
      ring

namespace Recipe

variable {recipes : Recipes κ} {rule : Rule κ} {recipe : Recipe κ}

theorem get?_of_ofSlots? {slots : List Slot} {children : List (Slot × Recipe κ)}
    (made : ofSlots? recipes slots = some children) :
    ∀ child ∈ children, recipes.get? child.1.symbol = some child.2 := by
  induction slots generalizing children with
  | nil =>
      cases made
      simp
  | cons slot rest ih =>
      simp only [ofSlots?] at made
      split at made
      · rename_i own others
        cases made
        exact List.forall_mem_cons.2 ⟨own, ih others⟩
      · cases made

/-- A recipe means what its rule does, applied to what is inserted for the symbols of the rule. -/
theorem meaning_of_ofRule? [Cost κ] (made : ofRule? recipes rule = some recipe) :
    ∃ slots children, ofSlots? recipes slots = some children ∧
      combine? rule.meaning (children.filterMap fun (_, child) => child.meaning) =
        some recipe.meaning := by
  have alone : combine? rule.meaning [] = some rule.meaning := by cases rule.meaning <;> rfl
  unfold ofRule? at made
  split at made
  · cases made
  · split at made
    · split at made
      · cases made
        exact ⟨[], [], rfl, alone⟩
      · split at made
        · cases made
        · split at made
          · cases made
          · cases made
            exact ⟨[], [], rfl, alone⟩
    · rename_i slots _
      split at made
      · cases made
      · rename_i children found
        simp only at made
        split at made
        · cases made
        · rename_i meaning combined
          cases made
          exact ⟨slots, children, found, combined⟩

section

variable [Cost κ] {only first second : Slot}

/-- What a rule on one symbol adds to the recipe of that symbol. -/
theorem ofRule?_single (made : ofRule? recipes rule = some recipe)
    (production : rule.production = .symbols [only]) :
    ∃ inner meaning, recipes.get? only.symbol = some inner ∧
      combine? rule.meaning inner.meaning.toList = some meaning ∧
      recipe = ⟨rule.cost + Cost.total [inner.cost], withForm only.form inner.text, meaning,
        rule.person <|> inner.person⟩ := by
  simp only [ofRule?, production, ofSlots?] at made
  split at made
  · cases made
  · cases own : recipes.get? only.symbol with
    | none => simp [own] at made
    | some inner =>
        have args : [(only, inner)].filterMap (fun (_, child) => child.meaning) =
            inner.meaning.toList := by
          cases meaning : inner.meaning <;> simp [meaning]
        simp only [own, args] at made
        split at made
        · cases made
        · rename_i meaning combined
          cases made
          exact ⟨inner, meaning, rfl, combined, by simp⟩

/-- What a rule on two symbols adds to the recipes of these symbols. -/
theorem ofRule?_pair (made : ofRule? recipes rule = some recipe)
    (production : rule.production = .symbols [first, second]) :
    ∃ one two meaning, recipes.get? first.symbol = some one ∧
      recipes.get? second.symbol = some two ∧
      combine? rule.meaning (one.meaning.toList ++ two.meaning.toList) = some meaning ∧
      recipe = ⟨rule.cost + Cost.total [one.cost, two.cost],
        withForm first.form one.text ++ withForm second.form two.text, meaning,
        rule.person <|> one.person <|> two.person⟩ := by
  simp only [ofRule?, production, ofSlots?] at made
  split at made
  · cases made
  · cases left : recipes.get? first.symbol with
    | none => simp [left] at made
    | some one =>
        cases right : recipes.get? second.symbol with
        | none => simp [left, right] at made
        | some two =>
            have args : [(first, one), (second, two)].filterMap (fun (_, child) => child.meaning) =
                one.meaning.toList ++ two.meaning.toList := by
              cases ofOne : one.meaning <;> cases ofTwo : two.meaning <;> simp [ofOne, ofTwo]
            simp only [left, right, args] at made
            split at made
            · cases made
            · rename_i meaning combined
              cases made
              refine ⟨one, two, meaning, rfl, rfl, combined, ?_⟩
              cases ofOne : one.person <;> simp [ofOne]

end

end Recipe

namespace Recipes

variable [Cost κ] {rules : List (String × Rule κ)} {recipes : Recipes κ} {fuel : Nat}

/-- Whatever taking up a recipe keeps is kept by all passes. -/
theorem pass_induction {motive : Recipes κ → Prop}
    (step : ∀ recipes symbol rule recipe, (symbol, rule) ∈ rules → motive recipes →
      Recipe.ofRule? recipes rule = some recipe → recipes.improves symbol recipe = true →
      motive (recipes.insert symbol recipe))
    (start : motive recipes) : motive (pass rules recipes).1 := by
  induction rules generalizing recipes with
  | nil => exact start
  | cons first rest ih =>
      obtain ⟨symbol, rule⟩ := first
      have taken : motive (recipes.consider symbol rule).1 := by
        unfold consider
        split
        · exact start
        · rename_i recipe made
          split
          · rename_i better
            exact step recipes symbol rule recipe (List.mem_cons_self ..) start made better
          · exact start
      exact ih (fun recipes symbol rule recipe member =>
        step recipes symbol rule recipe (List.mem_cons_of_mem _ member)) taken

theorem passes_induction {motive : Recipes κ → Prop}
    (step : ∀ recipes symbol rule recipe, (symbol, rule) ∈ rules → motive recipes →
      Recipe.ofRule? recipes rule = some recipe → recipes.improves symbol recipe = true →
      motive (recipes.insert symbol recipe))
    (start : motive recipes) : motive (passes rules fuel recipes) := by
  induction fuel generalizing recipes with
  | zero => exact start
  | succ fuel ih =>
      simp only [passes]
      split
      · exact ih (pass_induction step start)
      · exact pass_induction step start

end Recipes

namespace Grammar

variable {symbol : String}

/-- What holds of every recipe that is made from others of which it holds, holds of all. -/
theorem recipes_induction [Cost κ] {grammar : Grammar κ} {motive : String → Recipe κ → Prop}
    (step : ∀ recipes symbol rule recipe, rule ∈ grammar.rulesOf symbol →
      (∀ other known, recipes.get? other = some known → motive other known) →
      Recipe.ofRule? recipes rule = some recipe → motive symbol recipe)
    {recipe : Recipe κ} (found : grammar.recipes.get? symbol = some recipe) :
    motive symbol recipe := by
  have all : ∀ other known, grammar.recipes.get? other = some known → motive other known := by
    refine Recipes.passes_induction (motive := fun recipes => ∀ other known,
      recipes.get? other = some known → motive other known) ?_ (by simp)
    intro recipes symbol rule recipe member before made _ other known
    rw [Dictionary.get?_insert]
    split
    · rename_i same
      subst same
      rintro ⟨⟩
      exact step recipes other rule recipe (mem_allRules.1 member) before made
    · exact before other known
  exact all symbol recipe found

/-- What expansions without input amount to: a rule applies its own to the recipes of its parts. -/
inductive Inserts [Cost κ] (grammar : Grammar κ) : Expansion κ → Recipe κ → Prop
  | empty {symbol : String} {rule : Rule κ} : rule ∈ grammar.rulesOf symbol →
      rule.noInsert = false → rule.production = .literal emptyLiteral →
      grammar.Inserts (.literal symbol rule) ⟨rule.cost, [], rule.meaning, rule.person⟩
  | literal {symbol text : String} {rule : Rule κ} {price : κ} : rule ∈ grammar.rulesOf symbol →
      rule.noInsert = false → rule.production = .literal text →
      rule.production.isEmptyLiteral = false → rule.insertionCost = some price →
      rule.role ≠ .placeholder →
      grammar.Inserts (.literal symbol rule)
        ⟨rule.cost + price, rule.display.toList.map fun wording => { wording }, rule.meaning,
          rule.person⟩
  | single {symbol : String} {rule : Rule κ} {slot : Slot} {part : Expansion κ} {inner : Recipe κ}
      {meaning : Option (Meaning κ)} : rule ∈ grammar.rulesOf symbol → rule.noInsert = false →
      rule.slots = [slot] → part.symbol = slot.symbol → grammar.Inserts part inner →
      Recipe.combine? rule.meaning inner.meaning.toList = some meaning →
      grammar.Inserts (.single symbol rule part)
        ⟨rule.cost + Cost.total [inner.cost], Recipe.withForm slot.form inner.text, meaning,
          rule.person <|> inner.person⟩
  | pair {symbol : String} {rule : Rule κ} {first second : Slot} {left right : Expansion κ}
      {one two : Recipe κ} {meaning : Option (Meaning κ)} : rule ∈ grammar.rulesOf symbol →
      rule.noInsert = false → rule.slots = [first, second] → left.symbol = first.symbol →
      right.symbol = second.symbol → grammar.Inserts left one → grammar.Inserts right two →
      Recipe.combine? rule.meaning (one.meaning.toList ++ two.meaning.toList) = some meaning →
      grammar.Inserts (.pair symbol rule left right)
        ⟨rule.cost + Cost.total [one.cost, two.cost],
          Recipe.withForm first.form one.text ++ Recipe.withForm second.form two.text, meaning,
          rule.person <|> one.person <|> two.person⟩

section

variable [Cost κ] {grammar : Grammar κ} {expansion : Expansion κ} {recipe : Recipe κ}

theorem Inserts.admits (inserts : grammar.Inserts expansion recipe) :
    grammar.Admits expansion := by
  induction inserts with
  | empty member _ production | literal member _ production =>
      exact .literal member (Rule.isLiteral_of_production production)
  | single member _ slots same _ _ ih => exact .single member slots same ih
  | pair member _ slots left right _ _ _ ihLeft ihRight =>
      exact .pair member slots left right ihLeft ihRight

theorem Inserts.silent (inserts : grammar.Inserts expansion recipe) : expansion.Silent := by
  induction inserts with
  | empty _ allowed production =>
      have insertable : Rule.Insertable _ :=
        ⟨allowed, fun _ => .inl (by simp [production, Production.isEmptyLiteral])⟩
      simpa
  | literal _ allowed _ _ priced role =>
      have insertable : Rule.Insertable _ := ⟨allowed, fun _ => .inr (by simp [priced, role])⟩
      simpa
  | single _ allowed slots _ _ _ ih =>
      have insertable : Rule.Insertable _ :=
        ⟨allowed, fun literal => by simp [Rule.slots_of_isLiteral literal] at slots⟩
      simp [insertable, ih]
  | pair _ allowed slots _ _ _ _ _ ihLeft ihRight =>
      have insertable : Rule.Insertable _ :=
        ⟨allowed, fun literal => by simp [Rule.slots_of_isLiteral literal] at slots⟩
      simp [insertable, ihLeft, ihRight]

theorem Inserts.cost_eq (inserts : grammar.Inserts expansion recipe) :
    recipe.cost = expansion.insertedCost := by
  induction inserts with
  | empty _ _ production => simp [Expansion.insertedCost, production, Production.isEmptyLiteral]
  | literal _ _ _ solid priced => simp [Expansion.insertedCost, solid, priced]
  | single _ _ _ _ _ _ ih => rw [Expansion.insertedCost, ih]
  | pair _ _ _ _ _ _ _ _ ihLeft ihRight => rw [Expansion.insertedCost, ihLeft, ihRight]

/-- Behind every recipe is an expansion that needs no input. -/
theorem exists_inserts_of_recipe (valid : grammar.validate = .ok ())
    (found : grammar.recipes.get? symbol = some recipe) :
    ∃ expansion, expansion.symbol = symbol ∧ grammar.Inserts expansion recipe := by
  refine recipes_induction (motive := fun symbol recipe =>
    ∃ expansion : Expansion κ, expansion.symbol = symbol ∧ grammar.Inserts expansion recipe) ?_ found
  intro recipes symbol rule recipe member known made
  cases allowed : rule.noInsert with
  | true => simp [Recipe.ofRule?, allowed] at made
  | false =>
      rcases production_of_validate valid member with
        ⟨text, production⟩ | ⟨only, production⟩ | ⟨first, second, production⟩
      · simp only [Recipe.ofRule?, allowed, production, Bool.false_eq_true, if_false] at made
        split at made
        · rename_i empty
          cases made
          exact ⟨_, rfl, .empty member allowed (by rw [production, beq_iff_eq.1 empty])⟩
        · rename_i solid
          split at made
          · cases made
          · rename_i price priced
            split at made
            · cases made
            · rename_i role
              cases made
              exact ⟨_, rfl, .literal member allowed production
                (by simpa [production, Production.isEmptyLiteral] using solid) priced role⟩
      · obtain ⟨inner, meaning, own, combined, rfl⟩ := Recipe.ofRule?_single made production
        obtain ⟨part, same, inserts⟩ := known _ _ own
        have slots := Rule.slots_of_production production
        exact ⟨_, rfl, .single member allowed slots same inserts combined⟩
      · obtain ⟨one, two, meaning, left, right, combined, rfl⟩ := Recipe.ofRule?_pair made production
        obtain ⟨first, same, inserts⟩ := known _ _ left
        obtain ⟨second, sameAlso, insertsAlso⟩ := known _ _ right
        have slots := Rule.slots_of_production production
        exact ⟨_, rfl, .pair member allowed slots same sameAlso inserts insertsAlso combined⟩

end

/-- A recipe costs what an expansion without input costs. -/
theorem exists_silent_of_recipe [Cost κ] {grammar : Grammar κ} {recipe : Recipe κ}
    (valid : grammar.validate = .ok ()) (found : grammar.recipes.get? symbol = some recipe) :
    ∃ expansion, grammar.Admits expansion ∧ expansion.symbol = symbol ∧ expansion.Silent ∧
      recipe.cost = expansion.insertedCost := by
  obtain ⟨expansion, same, inserts⟩ := exists_inserts_of_recipe valid found
  exact ⟨expansion, inserts.admits, same, inserts.silent, inserts.cost_eq⟩

end Grammar

end QueryGrammar
