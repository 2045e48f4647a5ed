import QueryGrammar.Proofs.Edits.Offers
import QueryGrammar.Proofs.Edits.Recipes

namespace QueryGrammar

/-! Expansions by rules for edits, and what they are edits of.

Main statement: behind every expansion by rules for edits there is one by the rules given, in which
what was left out is put back and what was swapped is in its place again.
-/

/-- An expansion by rules for edits, with what every edit undoes. -/
inductive Restored (κ : Type) where
  | literal (symbol : String) (rule : Rule κ)
  | single (symbol : String) (rule : Rule κ) (part : Restored κ)
  | pair (symbol : String) (rule : Rule κ) (left right : Restored κ)
  /-- A rule that leaves out a symbol of `base`, and what is put in its place at `index`. -/
  | omission (symbol : String) (rule base : Rule κ) (index : Nat) (part : Restored κ)
      (put : Expansion κ)
  /-- A rule that swaps the symbols of `base`, with the parts in the order of the input. -/
  | swap (symbol : String) (rule base : Rule κ) (left right : Restored κ)

namespace Restored

variable {κ : Type}

/-- The expansion by rules for edits. -/
def surface : Restored κ → Expansion κ
  | .literal symbol rule => .literal symbol rule
  | .single symbol rule part => .single symbol rule part.surface
  | .pair symbol rule left right => .pair symbol rule left.surface right.surface
  | .omission symbol rule _ _ part _ => .single symbol rule part.surface
  | .swap symbol rule _ left right => .pair symbol rule left.surface right.surface

/-- The expansion by rules that are no edits. -/
def whole : Restored κ → Expansion κ
  | .literal symbol rule => .literal symbol rule
  | .single symbol rule part => .single symbol rule part.whole
  | .pair symbol rule left right => .pair symbol rule left.whole right.whole
  | .omission symbol _ base index part put =>
      if index = 0 then .pair symbol base put part.whole else .pair symbol base part.whole put
  | .swap symbol _ base left right => .pair symbol base right.whole left.whole

/-- The rules on literals, in the order of the input, and whether they are put in. -/
def literals : Restored κ → List (Rule κ × Bool)
  | .literal _ rule => [(rule, false)]
  | .single _ _ part => part.literals
  | .pair _ _ left right => left.literals ++ right.literals
  | .omission _ _ _ index part put =>
      let inserted := put.literals.map fun rule => (rule, true)
      if index = 0 then inserted ++ part.literals else part.literals ++ inserted
  | .swap _ _ _ left right => left.literals ++ right.literals

def inserted (restored : Restored κ) : List (Rule κ) :=
  (restored.literals.filter fun literal => literal.2).map Prod.fst

def consumed (restored : Restored κ) : List (Rule κ) :=
  (restored.literals.filter fun literal => !literal.2).map Prod.fst

/-- The rules whose symbols are swapped. -/
def swapped : Restored κ → List (Rule κ)
  | .literal _ _ => []
  | .single _ _ part => part.swapped
  | .pair _ _ left right => left.swapped ++ right.swapped
  | .omission _ _ _ _ part _ => part.swapped
  | .swap _ _ base left right => base :: (left.swapped ++ right.swapped)

/-- Every edit is an edit of the rule that it is said to be of, and what is put in is silent. -/
inductive Faithful [Cost κ] : Restored κ → Prop
  | literal {symbol : String} {rule : Rule κ} : rule.isBase = true →
      Faithful (.literal symbol rule)
  | single {symbol : String} {rule : Rule κ} {part : Restored κ} : rule.isBase = true →
      part.Faithful → Faithful (.single symbol rule part)
  | pair {symbol : String} {rule : Rule κ} {left right : Restored κ} : rule.isBase = true →
      left.Faithful → right.Faithful → Faithful (.pair symbol rule left right)
  | omission {symbol : String} {base : Rule κ} {index : Nat} {kept omitted : Slot}
      {recipe : Recipe κ} {part : Restored κ} {put : Expansion κ} : base.noInsert = false →
      Edits.Leaves base index kept omitted → put.Silent → part.Faithful →
      Faithful (.omission symbol (Edits.omitting base index kept omitted recipe) base index part put)
  | swap {symbol : String} {base : Rule κ} {first second : Slot} {penalty : κ}
      {left right : Restored κ} : base.slots = [first, second] →
      base.transpositionCost = some penalty → left.Faithful → right.Faithful →
      Faithful (.swap symbol (Edits.swapping base first second penalty) base left right)

variable {restored : Restored κ}

@[simp] theorem symbol_surface : restored.surface.symbol = restored.whole.symbol := by
  cases restored with
  | omission symbol rule base index part put =>
      by_cases here : index = 0 <;> simp [surface, whole, here, Expansion.symbol]
  | _ => rfl

/-- The input is spelled by the literals that are not put in. -/
theorem literals_surface : restored.surface.literals = restored.consumed := by
  induction restored with
  | literal symbol rule => rfl
  | single symbol rule part ih => exact ih
  | pair symbol rule left right ihLeft ihRight | swap symbol rule base left right ihLeft ihRight =>
      simp [surface, Expansion.literals, ihLeft, ihRight, consumed, literals]
  | omission symbol rule base index part put ih =>
      by_cases here : index = 0 <;>
        simp [surface, Expansion.literals, ih, consumed, literals, here]

/-- The literals are those of the expansion that is no edit, in another order. -/
theorem literals_perm : (restored.literals.map Prod.fst).Perm restored.whole.literals := by
  induction restored with
  | literal symbol rule => exact .refl _
  | single symbol rule part ih => exact ih
  | pair symbol rule left right ihLeft ihRight =>
      rw [literals, List.map_append]
      exact ihLeft.append ihRight
  | swap symbol rule base left right ihLeft ihRight =>
      rw [literals, List.map_append]
      exact (ihLeft.append ihRight).trans List.perm_append_comm
  | omission symbol rule base index part put ih =>
      have own : (put.literals.map fun rule => (rule, true)).map Prod.fst = put.literals := by
        rw [List.map_map]
        exact List.map_id _
      by_cases here : index = 0
      · simp only [literals, whole, here, if_true, List.map_append, own]
        exact ih.append_left _
      · simp only [literals, whole, here, if_false, List.map_append, own]
        exact ih.append_right _

end Restored

def transpositionCosts (rules : List (Rule ℚ)) : ℚ :=
  Cost.total (rules.map fun rule => rule.transpositionCost.getD 0)

namespace Restored

variable {symbol : String} {rule base : Rule ℚ} {index : Nat} {part left right : Restored ℚ}
  {put : Expansion ℚ}

def penalty (restored : Restored ℚ) : ℚ :=
  insertionCosts restored.inserted + transpositionCosts restored.swapped

theorem penalty_literal : (literal symbol rule).penalty = 0 :=
  add_zero _

theorem penalty_pair : (pair symbol rule left right).penalty = left.penalty + right.penalty := by
  simp only [penalty, inserted, literals, swapped, transpositionCosts, List.filter_append,
    List.map_append, insertionCosts_append, Cost.total_append]
  ring

theorem penalty_swap : (swap symbol rule base left right).penalty =
    base.transpositionCost.getD 0 + left.penalty + right.penalty := by
  simp only [penalty, inserted, literals, swapped, transpositionCosts, List.filter_append,
    List.map_append, List.map_cons, insertionCosts_append, Cost.total_append, Cost.total_cons]
  ring

theorem penalty_omission : (omission symbol rule base index part put).penalty =
    insertionCosts put.literals + part.penalty := by
  have own : ((put.literals.map fun rule => (rule, true)).filter fun literal => literal.2).map
      Prod.fst = put.literals := by
    simp [List.filter_map, Function.comp_def]
  by_cases here : index = 0
  · simp only [penalty, inserted, literals, swapped, here, if_true, List.filter_append,
      List.map_append, own, insertionCosts_append]
    ring
  · simp only [penalty, inserted, literals, swapped, here, if_false, List.filter_append,
      List.map_append, own, insertionCosts_append]
    ring

end Restored

namespace Grammar

variable {grammar edited : Grammar ℚ} {expansion : Expansion ℚ}

theorem exists_restored (valid : grammar.validate = .ok ())
    (given : ∀ symbol, ∀ rule ∈ grammar.rulesOf symbol, rule.isBase = true)
    (derived : grammar.withEdits = .ok edited) (admits : edited.Admits expansion) :
    ∃ restored : Restored ℚ, restored.surface = expansion ∧ restored.Faithful ∧
      grammar.Admits restored.whole ∧
      expansion.cost = restored.whole.cost + restored.penalty := by
  induction admits with
  | @literal symbol rule member isLiteral =>
      obtain ⟨text, production⟩ := Rule.isLiteral_iff.1 isLiteral
      -- Edits only make rules on symbols.
      have own := (origin_of_withEdits derived member).given_of_literal production
      refine ⟨.literal symbol rule, rfl, .literal (given _ _ own), .literal own isLiteral, ?_⟩
      rw [Restored.penalty_literal, add_zero, Restored.whole]
  | @single symbol rule slot part member slots same _ ih =>
      obtain ⟨inner, rfl, faithful, whole, costInner⟩ := ih
      cases origin_of_withEdits derived member with
      | given own =>
          refine ⟨.single symbol rule inner, rfl, .single (given _ _ own) faithful,
            .single own slots (by simpa using same) whole, ?_⟩
          have penalty : (Restored.single symbol rule inner).penalty = inner.penalty := rfl
          simp only [Expansion.cost, Restored.whole, costInner, penalty]
          ring
      | @omission base index kept omitted recipe own allowed leaves found =>
          -- The recipe says what an expansion costs that is put back.
          obtain ⟨put, admitsPut, samePut, silent, costPut⟩ := exists_silent_of_recipe valid found
          rw [Edits.slots_omitting, List.cons.injEq] at slots
          obtain ⟨rfl, -⟩ := slots
          refine ⟨.omission symbol _ base index inner put, rfl,
            .omission allowed leaves silent faithful, ?_, ?_⟩
          · cases leaves with
            | first slots => exact .pair own slots (by simpa using same) samePut whole admitsPut
            | second slots => exact .pair own slots samePut (by simpa using same) admitsPut whole
          · have cost : (Restored.omission symbol (Edits.omitting base index kept omitted recipe) base
                index inner put).whole.cost = base.cost + put.cost + inner.whole.cost := by
              cases leaves with
              | first =>
                  simp only [Restored.whole, one_ne_zero, if_false, Expansion.cost]
                  ring
              | second => rfl
            simp only [Expansion.cost, Edits.cost_omitting, cost, costInner, costPut,
              Expansion.insertedCost_eq, Restored.penalty_omission]
            ring
      | swap own => cases slots
  | @pair symbol rule first second left right member slots one two _ _ ihLeft ihRight =>
      obtain ⟨innerLeft, rfl, faithfulLeft, wholeLeft, costLeft⟩ := ihLeft
      obtain ⟨innerRight, rfl, faithfulRight, wholeRight, costRight⟩ := ihRight
      cases origin_of_withEdits derived member with
      | given own =>
          refine ⟨.pair symbol rule innerLeft innerRight, rfl,
            .pair (given _ _ own) faithfulLeft faithfulRight,
            .pair own slots (by simpa using one) (by simpa using two) wholeLeft wholeRight, ?_⟩
          simp only [Expansion.cost, Restored.whole, costLeft, costRight, Restored.penalty_pair]
          ring
      | omission own => cases slots
      | @swap base _ _ penalty own before priced =>
          simp only [Edits.slots_swapping, List.cons.injEq, and_true] at slots
          obtain ⟨rfl, rfl⟩ := slots
          refine ⟨.swap symbol _ base innerLeft innerRight, rfl,
            .swap before priced faithfulLeft faithfulRight,
            .pair own before (by simpa using two) (by simpa using one) wholeRight wholeLeft, ?_⟩
          simp only [Expansion.cost, Restored.whole, costLeft, costRight, Restored.penalty_swap,
            priced, Option.getD_some, Edits.cost_swapping]
          ring

/-- Rules for edits are sound: they only leave out what can be produced from nothing, and only swap
what a rule allows to be swapped, at the costs of the rules given. -/
theorem withEdits_sound (valid : grammar.validate = .ok ())
    (given : ∀ symbol, ∀ rule ∈ grammar.rulesOf symbol, rule.isBase = true)
    (derived : grammar.withEdits = .ok edited) (admits : edited.Admits expansion) :
    ∃ restored : Restored ℚ, restored.surface = expansion ∧ restored.Faithful ∧
      grammar.Admits restored.whole ∧ restored.whole.symbol = expansion.symbol ∧
      (restored.literals.map Prod.fst).Perm restored.whole.literals ∧
      expansion.literals = restored.consumed ∧
      expansion.cost = restored.whole.cost + insertionCosts restored.inserted +
        transpositionCosts restored.swapped := by
  obtain ⟨restored, rfl, faithful, whole, cost⟩ := exists_restored valid given derived admits
  refine ⟨restored, rfl, faithful, whole, restored.symbol_surface.symm, restored.literals_perm,
    restored.literals_surface, ?_⟩
  rw [cost, Restored.penalty, add_assoc]

/-- A verb and an object that may be swapped, and an article that may be left out. -/
def object : Grammar ℚ where
  start := "S"
  rules := .ofList [
    ("S", [{ Rule.symbols ["V", "O"] with transpositionCost := some (1 / 2) }]),
    ("V", [.literal "see"]),
    ("O", [.symbols ["D", "N"]]),
    ("D", [{ Rule.literal "the" with insertionCost := some (1 / 4) }]),
    ("N", [.literal "cats"])]
  concepts := {}

set_option maxRecDepth 100000 in
theorem withEdits_sound_object : ∃ (edited : Grammar ℚ) (expansion : Expansion ℚ),
    object.validate = .ok () ∧
    (∀ symbol, ∀ rule ∈ object.rulesOf symbol, rule.isBase = true) ∧
    object.withEdits = .ok edited ∧ edited.Admits expansion ∧
    ∃ restored : Restored ℚ, restored.surface = expansion ∧ restored.Faithful ∧
      object.Admits restored.whole ∧ restored.whole.symbol = expansion.symbol ∧
      (restored.literals.map Prod.fst).Perm restored.whole.literals ∧
      expansion.literals = restored.consumed ∧
      expansion.cost = restored.whole.cost + insertionCosts restored.inserted +
        transpositionCosts restored.swapped := by
  have listed : ∀ entry ∈ object.allRules, entry.2.isBase = true := by decide +kernel
  have given : ∀ symbol, ∀ rule ∈ object.rulesOf symbol, rule.isBase = true :=
    fun symbol rule member => listed (symbol, rule) (mem_allRules.2 member)
  have accepted : (object.validate.toOption.any fun _ => true) = true := by decide +kernel
  have edits : (object.withEdits.toOption.any fun edited =>
      (edited.rulesOf "S").any (fun rule => rule.slots == [⟨"O", none⟩, ⟨"V", none⟩]) &&
      (edited.rulesOf "O").any (fun rule => rule.slots == [⟨"N", none⟩]) &&
      (edited.rulesOf "V").any Rule.isLiteral && (edited.rulesOf "N").any Rule.isLiteral) =
        true := by
    decide +kernel
  obtain ⟨_, valid, -⟩ := exists_ok_of_any accepted
  obtain ⟨edited, derived, rules⟩ := exists_ok_of_any edits
  simp only [Bool.and_eq_true, List.any_eq_true, beq_iff_eq] at rules
  obtain ⟨⟨⟨⟨swap, ofS, swapped⟩, omission, ofO, omitted⟩, verb, ofV, isVerb⟩, noun, ofN,
    isNoun⟩ := rules
  have bare : edited.Admits (.single "O" omission (.literal "N" noun)) :=
    .single ofO omitted rfl (.literal ofN isNoun)
  have admits := Admits.pair ofS swapped rfl rfl bare (.literal ofV isVerb)
  exact ⟨edited, _, valid, given, derived, admits, withEdits_sound valid given derived admits⟩

end Grammar

end QueryGrammar
