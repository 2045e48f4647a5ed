import QueryGrammar.Grammar.Basic
import QueryGrammar.Meaning.Siblings

namespace QueryGrammar

/-! Recipes: how a symbol is produced without any input.

A recipe is found rule by rule from the recipes of the symbols on the right.  Passes over all rules
are repeated until none finds a cheaper recipe; a pass can only make progress along a path on which
no symbol repeats, so the number of symbols bounds the number of passes.
-/

structure Recipe (κ : Type) where
  cost : κ
  text : List Piece
  meaning : Option (Meaning κ)
  person : Option Person

abbrev Recipes (κ : Type) := Dictionary (Recipe κ)

namespace Recipe

variable {κ : Type} [Cost κ]

/-- The meaning of a rule applied to those of its inserted children; `none` if they do not make a
single meaning. -/
def combine? (meaning : Option (Meaning κ)) (args : List (Meaning κ)) :
    Option (Option (Meaning κ)) :=
  match meaning, args with
  | none, [] => some none
  | none, [only] => some (some only)
  | none, _ => none
  | some meaning, [] => some (some meaning)
  | some meaning, args =>
      if meaning.isOpen then (meaning.fill? args).map some else none

/-- The recipes of all symbols on the right of a rule. -/
def ofSlots? (recipes : Recipes κ) : List Slot → Option (List (Slot × Recipe κ))
  | [] => some []
  | slot :: rest =>
      match recipes.get? slot.symbol, ofSlots? recipes rest with
      | some recipe, some others => some ((slot, recipe) :: others)
      | _, _ => none

/-- Pieces that select no form take the one that is selected for all of them. -/
def withForm (form : Option Form) (pieces : List Piece) : List Piece :=
  pieces.map fun piece => { piece with form := piece.form <|> form }

/-- What a rule inserts when it is produced without input. -/
def ofRule? (recipes : Recipes κ) (rule : Rule κ) : Option (Recipe κ) :=
  if rule.noInsert then none
  else match rule.production with
    | .literal text =>
        if text == emptyLiteral then some ⟨rule.cost, [], rule.meaning, rule.person⟩
        else match rule.insertionCost with
          | none => none
          | some insertionCost =>
              if rule.role = .placeholder then none
              else
                let pieces := rule.display.toList.map fun wording => { wording }
                some ⟨rule.cost + insertionCost, pieces, rule.meaning, rule.person⟩
    | .symbols slots =>
        match ofSlots? recipes slots with
        | none => none
        | some children =>
            let args := children.filterMap fun (_, child) => child.meaning
            match combine? rule.meaning args with
            | none => none
            | some meaning => some {
                cost := rule.cost + Cost.total (children.map fun (_, child) => child.cost)
                text := children.flatMap fun (slot, child) => withForm slot.form child.text
                meaning
                person := rule.person <|> children.findSome? fun (_, child) => child.person }

end Recipe

namespace Recipes

variable {κ : Type} [Cost κ]

/-- Whether a recipe is better than what a symbol has. -/
def improves (recipes : Recipes κ) (symbol : String) (recipe : Recipe κ) : Bool :=
  match recipes.get? symbol with
  | none => true
  | some present => Cost.less recipe.cost present.cost

/-- Takes up what a rule inserts if that is better, and tells whether it was. -/
def consider (recipes : Recipes κ) (symbol : String) (rule : Rule κ) : Recipes κ × Bool :=
  match Recipe.ofRule? recipes rule with
  | none => (recipes, false)
  | some recipe =>
      if recipes.improves symbol recipe then (recipes.insert symbol recipe, true)
      else (recipes, false)

def pass : List (String × Rule κ) → Recipes κ → Recipes κ × Bool
  | [], recipes => (recipes, false)
  | (symbol, rule) :: rest, recipes =>
      let (better, changed) := recipes.consider symbol rule
      let (best, changedLater) := pass rest better
      (best, changed || changedLater)

def passes (rules : List (String × Rule κ)) : Nat → Recipes κ → Recipes κ
  | 0, recipes => recipes
  | fuel + 1, recipes =>
      let (better, changed) := pass rules recipes
      if changed then passes rules fuel better else better

end Recipes

/-- The cheapest recipe of every symbol that has one. -/
def Grammar.recipes {κ : Type} [Cost κ] (grammar : Grammar κ) : Recipes κ :=
  Recipes.passes grammar.allRules (grammar.rules.size + 1) {}

end QueryGrammar
