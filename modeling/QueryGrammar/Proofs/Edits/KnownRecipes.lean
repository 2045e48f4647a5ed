import QueryGrammar.Proofs.Edits.Recipes

namespace QueryGrammar

/-! Which symbols have recipes.

Main statement: where rules have no meaning, every symbol with an expansion that needs no input has
a recipe.
-/

variable {κ : Type}

namespace Recipes

def Knows (recipes : Recipes κ) (symbol : String) : Prop :=
  ∃ recipe, recipes.get? symbol = some recipe

/-- Recipes that have no meanings. -/
def Plain (recipes : Recipes κ) : Prop :=
  ∀ symbol recipe, recipes.get? symbol = some recipe → recipe.meaning = none

end Recipes

namespace Recipe

variable {recipes : Recipes κ} {rule : Rule κ} {recipe : Recipe κ}

theorem exists_ofSlots? {slots : List Slot}
    (known : ∀ slot ∈ slots, recipes.Knows slot.symbol) :
    ∃ children, ofSlots? recipes slots = some children := by
  induction slots with
  | nil => exact ⟨[], rfl⟩
  | cons slot rest ih =>
      obtain ⟨⟨own, found⟩, others⟩ := List.forall_mem_cons.1 known
      obtain ⟨children, made⟩ := ih others
      exact ⟨(slot, own) :: children, by simp [ofSlots?, found, made]⟩

/-- Recipes without meanings hand on none. -/
theorem no_arguments {slots : List Slot} {children : List (Slot × Recipe κ)}
    (plain : recipes.Plain) (made : ofSlots? recipes slots = some children) :
    children.filterMap (fun (_, child) => child.meaning) = [] := by
  induction slots generalizing children with
  | nil =>
      cases made
      rfl
  | cons slot rest ih =>
      simp only [ofSlots?] at made
      split at made
      · rename_i own others
        cases made
        simp [plain _ _ own, ih others]
      · cases made

variable [Cost κ]

theorem meaningless_of_ofRule? (meaningless : rule.meaning = none) (plain : recipes.Plain)
    (made : ofRule? recipes rule = some recipe) : recipe.meaning = none := by
  obtain ⟨slots, children, found, combined⟩ := meaning_of_ofRule? made
  rw [no_arguments plain found, meaningless, combine?, Option.some.injEq] at combined
  exact combined.symm

/-- Where there are no meanings, nothing else keeps a rule from being produced from nothing. -/
theorem exists_ofRule? (insertable : rule.Insertable) (meaningless : rule.meaning = none)
    (plain : recipes.Plain) (known : ∀ slot ∈ rule.slots, recipes.Knows slot.symbol) :
    ∃ recipe, ofRule? recipes rule = some recipe := by
  obtain ⟨allowed, literal⟩ := insertable
  unfold ofRule?
  simp only [allowed, Bool.false_eq_true, if_false]
  cases production : rule.production with
  | literal text =>
      rcases literal (Rule.isLiteral_of_production production) with empty | ⟨priced, role⟩
      · have same : (text == emptyLiteral) = true := by
          simpa [production, Production.isEmptyLiteral] using empty
        simp [same]
      · obtain ⟨price, found⟩ := Option.isSome_iff_exists.1 priced
        by_cases same : (text == emptyLiteral) = true <;> simp [same, found, role]
  | symbols slots =>
      rw [Rule.slots_of_production production] at known
      obtain ⟨children, made⟩ := exists_ofSlots? known
      simp [made, no_arguments plain made, meaningless, combine?]

end Recipe

namespace Recipes

variable {rules : List (String × Rule κ)} {recipes : Recipes κ} {fuel : Nat}

theorem knows_iff {symbol : String} : recipes.Knows symbol ↔ recipes.contains symbol = true :=
  Option.isSome_iff_exists.symm

theorem knows_insert {symbol other : String} {recipe : Recipe κ} :
    Knows (recipes.insert symbol recipe) other ↔ other = symbol ∨ recipes.Knows other := by
  unfold Knows
  rw [Dictionary.get?_insert]
  by_cases same : other = symbol <;> simp [same]

theorem Plain.insert {symbol : String} {recipe : Recipe κ} (plain : recipes.Plain)
    (meaningless : recipe.meaning = none) : Plain (recipes.insert symbol recipe) := by
  intro other known found
  rw [Dictionary.get?_insert] at found
  split at found
  · cases found
    exact meaningless
  · exact plain other known found

variable [Cost κ]

theorem pass_mono (rules : List (String × Rule κ)) {symbol : String}
    (known : recipes.Knows symbol) : (pass rules recipes).1.Knows symbol :=
  pass_induction (motive := fun recipes => recipes.Knows symbol)
    (fun _ _ _ _ _ known _ _ => knows_insert.2 (.inr known)) known

theorem passes_mono {symbol : String} (known : recipes.Knows symbol) :
    (passes rules fuel recipes).Knows symbol :=
  passes_induction (motive := fun recipes => recipes.Knows symbol)
    (fun _ _ _ _ _ known _ _ => knows_insert.2 (.inr known)) known

theorem pass_plain (meaningless : ∀ entry ∈ rules, entry.2.meaning = none)
    (plain : recipes.Plain) : (pass rules recipes).1.Plain :=
  pass_induction (motive := Plain) (fun _ _ _ _ member plain made _ =>
    plain.insert (Recipe.meaningless_of_ofRule? (meaningless _ member) plain made)) plain

theorem consider_spec (recipes : Recipes κ) (symbol : String) (rule : Rule κ) :
    ((recipes.consider symbol rule).2 = false → (recipes.consider symbol rule).1 = recipes) ∧
      ∀ recipe, Recipe.ofRule? recipes rule = some recipe →
        (recipes.consider symbol rule).1.Knows symbol := by
  unfold consider
  cases made : Recipe.ofRule? recipes rule with
  | none => simp
  | some recipe =>
      cases better : recipes.improves symbol recipe with
      | true => simp [better, knows_insert]
      | false =>
          refine ⟨fun _ => by simp [better], fun _ _ => ?_⟩
          simp only [better, Bool.false_eq_true, if_false]
          unfold improves at better
          cases found : recipes.get? symbol with
          | none => simp [found] at better
          | some present => simp [Knows, found]

/-- A pass takes up every rule whose symbols are known before. -/
theorem pass_takes {symbol : String} {rule : Rule κ} (member : (symbol, rule) ∈ rules)
    (meaningless : ∀ entry ∈ rules, entry.2.meaning = none) (plain : recipes.Plain)
    (insertable : rule.Insertable) (known : ∀ slot ∈ rule.slots, recipes.Knows slot.symbol) :
    (pass rules recipes).1.Knows symbol := by
  induction rules generalizing recipes with
  | nil => cases member
  | cons first rest ih =>
      obtain ⟨own, others⟩ := List.forall_mem_cons.1 meaningless
      rcases List.mem_cons.1 member with rfl | later
      · obtain ⟨recipe, made⟩ := Recipe.exists_ofRule? insertable own plain known
        have taken := (consider_spec recipes symbol rule).2 recipe made
        exact pass_mono rest taken
      · have single : ∀ entry ∈ [first], entry.2.meaning = none := by simpa using own
        exact ih later others (pass_plain single plain)
          fun slot inside => pass_mono [first] (known slot inside)

theorem pass_same (unchanged : (pass rules recipes).2 = false) :
    (pass rules recipes).1 = recipes := by
  induction rules generalizing recipes with
  | nil => rfl
  | cons first rest ih =>
      simp only [pass, Bool.or_eq_false_iff] at unchanged ⊢
      rw [ih unchanged.2, (consider_spec ..).1 unchanged.1]

end Recipes

namespace Grammar

variable {grammar : Grammar κ} {recipes : Recipes κ}

def unknown (grammar : Grammar κ) (recipes : Recipes κ) : List String :=
  grammar.rules.keys.filter fun symbol => !recipes.contains symbol

theorem mem_unknown {symbol : String} : symbol ∈ grammar.unknown recipes ↔
    symbol ∈ grammar.rules.keys ∧ ¬ recipes.Knows symbol := by
  simp [unknown, Recipes.knows_iff]

theorem length_unknown_lt {better : Recipes κ} {symbol : String}
    (keeps : ∀ symbol, recipes.Knows symbol → better.Knows symbol)
    (listed : symbol ∈ grammar.rules.keys) (missing : ¬ recipes.Knows symbol)
    (learned : better.Knows symbol) :
    (grammar.unknown better).length < (grammar.unknown recipes).length := by
  have fewer : grammar.unknown better =
      (grammar.unknown recipes).filter fun symbol => !better.contains symbol := by
    refine (List.filter_congr fun symbol _ => ?_).trans List.filter_filter.symm
    cases before : recipes.contains symbol with
    | false => simp
    | true =>
        have after := Recipes.knows_iff.1 (keeps symbol (Recipes.knows_iff.2 before))
        simp [after]
  rw [fewer, List.length_filter_lt_length_iff_exists]
  exact ⟨symbol, mem_unknown.2 ⟨listed, missing⟩, by simpa using Recipes.knows_iff.1 learned⟩

variable [Cost κ]

/-- A pass that misses something learns something. -/
theorem exists_learned
    (meaningless : ∀ symbol, ∀ rule ∈ grammar.rulesOf symbol, rule.meaning = none)
    (plain : recipes.Plain) {expansion : Expansion κ} (admits : grammar.Admits expansion)
    (silent : expansion.Silent) (missing : ¬ recipes.Knows expansion.symbol) :
    ∃ symbol ∈ grammar.rules.keys, ¬ recipes.Knows symbol ∧
      (Recipes.pass grammar.allRules recipes).1.Knows symbol := by
  have learn : ∀ {symbol rule}, rule ∈ grammar.rulesOf symbol → rule.Insertable →
      ¬ recipes.Knows symbol → (∀ slot ∈ rule.slots, recipes.Knows slot.symbol) →
      ∃ symbol ∈ grammar.rules.keys, ¬ recipes.Knows symbol ∧
        (Recipes.pass grammar.allRules recipes).1.Knows symbol := by
    intro symbol rule member insertable missing known
    obtain ⟨rules, found, -⟩ := mem_rulesOf.1 member
    refine ⟨symbol, Dictionary.mem_keys_iff.2 ⟨rules, found⟩, missing, ?_⟩
    exact Recipes.pass_takes (mem_allRules.2 member)
      (fun entry inside => meaningless entry.1 entry.2 (mem_allRules.1 inside)) plain insertable
      known
  -- Downwards from a symbol that is missing there is a rule with nothing missing below it.
  induction admits with
  | literal member isLiteral =>
      refine learn member (Expansion.silent_literal.1 silent) missing ?_
      simp [Rule.slots_of_isLiteral isLiteral]
  | @single symbol rule slot part member slots same _ ih =>
      obtain ⟨insertable, below⟩ := Expansion.silent_single.1 silent
      by_cases known : recipes.Knows part.symbol
      · exact learn member insertable missing (by simpa [slots, ← same] using known)
      · exact ih below known
  | @pair symbol rule first second left right member slots one two _ _ ihLeft ihRight =>
      obtain ⟨insertable, belowLeft, belowRight⟩ := Expansion.silent_pair.1 silent
      by_cases knownLeft : recipes.Knows left.symbol
      · by_cases knownRight : recipes.Knows right.symbol
        · refine learn member insertable missing ?_
          simp [slots, ← one, ← two, knownLeft, knownRight]
        · exact ihRight belowRight knownRight
      · exact ihLeft belowLeft knownLeft

/-- Every pass but the last learns a symbol, so there are enough of them for all. -/
theorem passes_complete
    (meaningless : ∀ symbol, ∀ rule ∈ grammar.rulesOf symbol, rule.meaning = none)
    (plain : recipes.Plain) {fuel : Nat} (enough : (grammar.unknown recipes).length < fuel)
    {expansion : Expansion κ} (admits : grammar.Admits expansion) (silent : expansion.Silent) :
    (Recipes.passes grammar.allRules fuel recipes).Knows expansion.symbol := by
  -- The fuel stays above the number of symbols that no recipe is known for.
  induction fuel generalizing recipes with
  | zero => exact absurd enough (Nat.not_lt_zero _)
  | succ fuel ih =>
      by_cases known : recipes.Knows expansion.symbol
      · exact Recipes.passes_mono known
      · obtain ⟨symbol, listed, missing, learned⟩ :=
          exists_learned meaningless plain admits silent known
        have changed : (Recipes.pass grammar.allRules recipes).2 = true := by
          by_contra unchanged
          rw [Recipes.pass_same (Bool.eq_false_iff.2 unchanged)] at learned
          exact missing learned
        simp only [Recipes.passes, changed, if_true]
        have fewer := length_unknown_lt (fun _ => Recipes.pass_mono grammar.allRules)
          listed missing learned
        refine ih (Recipes.pass_plain (fun entry inside =>
          meaningless entry.1 entry.2 (mem_allRules.1 inside)) plain) ?_
        omega

/-- Where rules have no meaning, every symbol that can be produced from nothing has a recipe. -/
theorem knows_of_silent
    (meaningless : ∀ symbol, ∀ rule ∈ grammar.rulesOf symbol, rule.meaning = none)
    {expansion : Expansion κ} (admits : grammar.Admits expansion) (silent : expansion.Silent) :
    grammar.recipes.Knows expansion.symbol := by
  refine passes_complete meaningless (by simp [Recipes.Plain]) ?_ admits silent
  have most : (grammar.unknown {}).length ≤ grammar.rules.keys.length := List.length_filter_le ..
  simp only [Dictionary.keys, List.length_map] at most
  exact Nat.lt_succ_of_le most

end Grammar

end QueryGrammar
