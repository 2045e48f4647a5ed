import QueryGrammar.Proofs.Edits.Kept
import QueryGrammar.Proofs.Edits.Recipes
import QueryGrammar.Proofs.Meaning.Legible
import QueryGrammar.Proofs.Meaning.Sharing

namespace QueryGrammar

/-! Rules that count as one.

Main statement: where no literal is spelled like a symbol and names can be told apart in text, every
rule that is offered is there in the end, or one that does the same and costs no more.
-/

variable {κ : Type}

namespace Meaning

theorem application?_legible {concept : Concept κ} {siblings : List (Meaning κ)}
    {result : Meaning κ} (made : application? concept siblings = some result)
    (own : concept.isLegible = true) (legible : ∀ meaning ∈ siblings, meaning.isLegible = true) :
    result.isLegible = true := by
  obtain ⟨args, perm, rfl⟩ := application?_eq_some made
  refine isLegible_apply.2 ⟨own, fun argument => ?_, fun meaning member =>
    legible meaning (perm.mem_iff.1 member)⟩
  unfold application? at made
  unfold Concept.isArgument at argument
  split at made
  · cases made
  · rename_i function
    simp [function] at argument

theorem fill?_legible (meaning : Meaning κ) (siblings : List (Meaning κ)) {result : Meaning κ}
    (made : meaning.fill? siblings = some result) (own : meaning.isLegible = true)
    (legible : ∀ meaning ∈ siblings, meaning.isLegible = true) : result.isLegible = true :=
  fill?_preserves (fun own => (isLegible_apply.1 own).2.2)
    (fun made own => application?_legible made (isLegible_apply.1 own).1) meaning siblings made own
    legible

end Meaning

namespace Recipe

variable {recipes : Recipes κ} {rule : Rule κ} {recipe : Recipe κ}

theorem combine?_legible {meaning combined : Option (Meaning κ)} {args : List (Meaning κ)}
    (made : combine? meaning args = some combined)
    (own : ∀ meaning' ∈ meaning, meaning'.isLegible = true)
    (legible : ∀ arg ∈ args, arg.isLegible = true) :
    ∀ meaning' ∈ combined, meaning'.isLegible = true := by
  unfold combine? at made
  split at made
  · cases made
    simp
  · rename_i only
    cases made
    rintro _ ⟨⟩
    exact legible only (List.mem_singleton_self only)
  · cases made
  · cases made
    exact own
  · rename_i open_ _
    split at made
    · obtain ⟨filled, filling, rfl⟩ := Option.map_eq_some_iff.1 made
      rintro _ ⟨⟩
      exact Meaning.fill?_legible open_ args filling (own open_ rfl) legible
    · cases made

/-- Where recipes have legible meanings, what a rule makes of them has one as well. -/
theorem legible_of_ofRule? [Cost κ] (made : ofRule? recipes rule = some recipe)
    (own : ∀ meaning ∈ rule.meaning, meaning.isLegible = true)
    (known : ∀ symbol other, recipes.get? symbol = some other →
      ∀ meaning ∈ other.meaning, meaning.isLegible = true) :
    ∀ meaning ∈ recipe.meaning, meaning.isLegible = true := by
  obtain ⟨slots, children, found, combined⟩ := meaning_of_ofRule? made
  refine combine?_legible combined own fun arg member => ?_
  obtain ⟨child, listed, given⟩ := List.mem_filterMap.1 member
  exact known child.1.symbol child.2 (get?_of_ofSlots? found child listed) arg given

end Recipe

namespace Rule

/-- What a rule means, and what it means besides for leaving a symbol out. -/
def meanings (rule : Rule κ) : List (Meaning κ) :=
  rule.meaning.toList ++ (rule.insertion.bind Insertion.meaning).toList

/-- Rules that match the same input and mean the same. -/
structure Resembles (rule other : Rule κ) : Prop where
  production : rule.production.sameAs other.production = true
  meaning : (rule.meaning == other.meaning) = true
  inserted : (rule.insertion.bind Insertion.meaning == other.insertion.bind Insertion.meaning) = true
  transposed : rule.transposed = other.transposed

instance {rule other : Rule κ} : Decidable (rule.Resembles other) :=
  decidable_of_iff (rule.production.sameAs other.production = true ∧
      (rule.meaning == other.meaning) = true ∧
      (rule.insertion.bind Insertion.meaning == other.insertion.bind Insertion.meaning) = true ∧
      rule.transposed = other.transposed)
    ⟨fun ⟨production, meaning, inserted, transposed⟩ => ⟨production, meaning, inserted, transposed⟩,
      fun ⟨production, meaning, inserted, transposed⟩ => ⟨production, meaning, inserted, transposed⟩⟩

end Rule

namespace Grammar

/-- All meanings in the rules can be told apart by their text. -/
def IsLegible (grammar : Grammar κ) : Prop :=
  ∀ entry ∈ grammar.allRules, ∀ meaning ∈ entry.2.meanings, meaning.isLegible = true

instance {grammar : Grammar κ} : Decidable grammar.IsLegible :=
  inferInstanceAs (Decidable (∀ entry ∈ grammar.allRules, ∀ meaning ∈ entry.2.meanings,
    meaning.isLegible = true))

variable {grammar : Grammar κ} {symbol : String} {rule : Rule κ} {meaning : Meaning κ}

theorem IsLegible.own (legible : grammar.IsLegible) (member : rule ∈ grammar.rulesOf symbol) :
    ∀ meaning ∈ rule.meaning, meaning.isLegible = true := fun meaning given =>
  legible _ (mem_allRules.2 member) meaning
    (List.mem_append_left _ (Option.mem_toList.2 given))

theorem IsLegible.recipe [Cost κ] (legible : grammar.IsLegible) {recipe : Recipe κ}
    (found : grammar.recipes.get? symbol = some recipe) :
    ∀ meaning ∈ recipe.meaning, meaning.isLegible = true :=
  recipes_induction
    (motive := fun _ recipe => ∀ meaning ∈ recipe.meaning, meaning.isLegible = true)
    (fun _ _ _ _ member known made => Recipe.legible_of_ofRule? made (legible.own member) known)
    found

end Grammar

namespace Edits

variable {symbol : String} {rule other : Rule κ}

theorem beq_of_text {first second : Option (Meaning κ)}
    (legible : ∀ meaning ∈ first, meaning.isLegible = true)
    (legibleAlso : ∀ meaning ∈ second, meaning.isLegible = true)
    (same : first.map Meaning.text = second.map Meaning.text) : (first == second) = true := by
  cases first with
  | none =>
      cases second with
      | none => rfl
      | some meaning => cases same
  | some meaning =>
      cases second with
      | none => cases same
      | some other =>
          have equal := Meaning.order_eq_of_text (legible meaning rfl) (legibleAlso other rfl)
            (Option.some.inj same)
          show (Meaning.order meaning other == .eq) = true
          rw [equal]
          rfl

variable [Cost κ] {grammar : Grammar κ}

theorem Origin.legible (legible : grammar.IsLegible) (origin : Origin grammar symbol rule) :
    (∀ meaning ∈ rule.meaning, meaning.isLegible = true) ∧
      ∀ meaning ∈ rule.insertion.bind Insertion.meaning, meaning.isLegible = true := by
  cases origin with
  | given member =>
      refine ⟨legible.own member, fun meaning given => ?_⟩
      exact legible _ (Grammar.mem_allRules.2 member) meaning
        (List.mem_append_right _ (Option.mem_toList.2 given))
  | omission member _ _ found =>
      have own := legible.own member
      exact ⟨own, legible.recipe found⟩
  | swap member =>
      have own := legible.own member
      exact ⟨own, by simp [swapping, derived]⟩

/-- Rules with the same key match the same input and mean the same. -/
theorem resembles_of_key (apart : grammar.SpellsApart) (legible : grammar.IsLegible)
    (origin : Origin grammar symbol rule) (also : Origin grammar symbol other)
    (same : Key.ofRule rule = Key.ofRule other) : rule.Resembles other := by
  obtain ⟨own, inserted⟩ := origin.legible legible
  obtain ⟨ownAlso, insertedAlso⟩ := also.legible legible
  exact ⟨sameAs_of_key apart origin also same, beq_of_text own ownAlso (congrArg Key.meaning same),
    beq_of_text inserted insertedAlso (congrArg Key.inserted same), congrArg Key.transposed same⟩

end Edits

namespace Grammar

variable {grammar edited : Grammar Amount}

/-- No rule is lost that is offered to a symbol and refers to symbols with rules alone: it is there
in the end, or one that matches the same input, means the same and costs no more.  What is offered is
every rule that is not on the empty literal, every swap, and every omission that does not lead a
symbol back to itself. -/
theorem withEdits_keeps_offers (apart : grammar.SpellsApart) (legible : grammar.IsLegible)
    (derived : grammar.withEdits = .ok edited) :
    (∀ symbol rule, (symbol, rule) ∈ Edits.offered grammar →
      (∀ slot ∈ rule.slots, ∃ other, other ∈ edited.rulesOf slot.symbol) →
      ∃ kept ∈ edited.rulesOf symbol, rule.Resembles kept ∧
        Cost.less rule.cost kept.cost = false) ∧
    ∀ symbol, ∀ base ∈ grammar.rulesOf symbol, base.production.isEmptyLiteral = false →
      (symbol, base) ∈ Edits.offered grammar ∧
      (∀ first second penalty, base.slots = [first, second] →
        base.transpositionCost = some penalty →
        (symbol, Edits.swapping base first second penalty) ∈ Edits.offered grammar) ∧
      ∀ index kept omitted recipe, base.noInsert = false → Edits.Leaves base index kept omitted →
        grammar.recipes.get? omitted.symbol = some recipe → kept.symbol ≠ symbol →
        (Edits.collect grammar).unary.reaches kept.symbol symbol = false →
        (symbol, Edits.omitting base index kept omitted recipe) ∈ Edits.offered grammar := by
  refine ⟨fun symbol rule listed defined => ?_, fun _ _ => Edits.offered_complete⟩
  obtain ⟨kept, member, key, cheap⟩ := Edits.collect_covers listed
  have resembles := Edits.resembles_of_key apart legible (Edits.origin_of_offered listed)
    (Edits.collect_origin member) key.symm
  refine ⟨kept, ?_, resembles, cheap⟩
  rw [rulesOf_withEdits derived]
  refine RuleMap.mem_prune_of_defined member fun slot inside => ?_
  have spelled : slot.symbol ∈ rule.slots.map Slot.symbol :=
    Production.sameAs_slots resembles.production ▸ List.mem_map_of_mem inside
  obtain ⟨own, ownMember, same⟩ := List.mem_map.1 spelled
  rw [← rulesOf_withEdits derived, ← same]
  exact defined own ownMember

/-- Leaving out either of two words means the same, but the second costs more. -/
def companions : Grammar Amount where
  start := "S"
  rules :=
    let all : Option (Meaning Amount) := some (.leaf ⟨"all", 0, .argument⟩)
    .ofList [
      ("C", [.literal "c", { Rule.literal emptyLiteral with meaning := all }]),
      ("D", [.literal "d", { Rule.literal emptyLiteral with meaning := all }]),
      ("S", [.symbols ["T", "C"], { Rule.symbols ["T", "D"] with cost := .known 1 }]),
      ("T", [.literal "t"])]
  concepts := {}

set_option maxRecDepth 100000 in
theorem withEdits_keeps_offers_companions : companions.SpellsApart ∧ companions.IsLegible ∧
    ∃ edited rule, companions.withEdits = .ok edited ∧ ("S", rule) ∈ Edits.offered companions ∧
      rule.slots = [⟨"T", none⟩] ∧ Cost.less 0 rule.cost = true ∧
      (∀ slot ∈ rule.slots, ∃ other, other ∈ edited.rulesOf slot.symbol) ∧
      ∃ kept ∈ edited.rulesOf "S", rule.Resembles kept ∧ Cost.less rule.cost kept.cost = false := by
  have apart : companions.SpellsApart := by decide +kernel
  have legible : companions.IsLegible := by decide +kernel
  have offers : (companions.withEdits.toOption.any fun edited =>
      !(edited.rulesOf "T").isEmpty && (Edits.offered companions).any fun entry =>
        decide (entry.1 = "S" ∧ entry.2.slots = [⟨"T", none⟩] ∧ Cost.less 0 entry.2.cost = true)) =
      true := by
    decide +kernel
  obtain ⟨edited, derived, found⟩ := exists_ok_of_any offers
  rw [Bool.and_eq_true, List.any_eq_true] at found
  obtain ⟨present, ⟨_, rule⟩, listed, dear⟩ := found
  obtain ⟨rfl, slots, costs⟩ := of_decide_eq_true dear
  have defined : ∀ slot ∈ rule.slots, ∃ other, other ∈ edited.rulesOf slot.symbol := by
    rw [slots]
    exact List.forall_mem_singleton.2 (List.exists_mem_of_ne_nil _ (by simpa using present))
  exact ⟨apart, legible, edited, rule, derived, listed, slots, costs, defined,
    (withEdits_keeps_offers apart legible derived).1 "S" rule listed defined⟩

/-- A literal is spelled like a symbol, and the name of an argument like an application. -/
def blurred : Grammar Amount where
  start := "S"
  rules :=
    let applied : Meaning Amount :=
      .apply ⟨"f", 0, .function 1 1 false false⟩ [.leaf ⟨"x", 0, .argument⟩]
    let named : Meaning Amount := .leaf ⟨"f(x)", 0, .argument⟩
    .ofList [
      ("C", [.literal "c", .literal emptyLiteral]),
      ("D", [.literal "d", { Rule.literal emptyLiteral with meaning := some applied }]),
      ("E", [.literal "e", { Rule.literal emptyLiteral with meaning := some named }]),
      ("S", [{ Rule.literal "T" with cost := .known 1 }, .symbols ["T", "C"], .symbols ["T", "D"],
        .symbols ["T", "E"]]),
      ("T", [.literal "t"])]
  concepts := {}

set_option maxRecDepth 100000 in
/-- Rules are lost to others that match something else, and to others that mean something else. -/
theorem withEdits_loses_blurred : blurred.validate = .ok () ∧
    ∃ edited, blurred.withEdits = .ok edited ∧ edited.rulesOf "T" ≠ [] ∧
      (∃ rule, ("S", rule) ∈ Edits.offered blurred ∧ rule.production = .literal "T" ∧
        ∀ kept ∈ edited.rulesOf "S", ¬ rule.Resembles kept) ∧
      ∃ rule, ("S", rule) ∈ Edits.offered blurred ∧ rule.slots = [⟨"T", none⟩] ∧
        ∀ kept ∈ edited.rulesOf "S", ¬ rule.Resembles kept := by
  have accepted : (blurred.validate.toOption.any fun _ => true) = true := by decide +kernel
  have loses : (blurred.withEdits.toOption.any fun edited => !(edited.rulesOf "T").isEmpty &&
      ((Edits.offered blurred).any fun entry => decide (entry.1 = "S" ∧
        entry.2.production = .literal "T" ∧
        ∀ kept ∈ edited.rulesOf "S", ¬ entry.2.Resembles kept)) &&
      (Edits.offered blurred).any fun entry => decide (entry.1 = "S" ∧
        entry.2.slots = [⟨"T", none⟩] ∧
        ∀ kept ∈ edited.rulesOf "S", ¬ entry.2.Resembles kept)) = true := by
    decide +kernel
  obtain ⟨_, valid, -⟩ := exists_ok_of_any accepted
  obtain ⟨edited, derived, found⟩ := exists_ok_of_any loses
  rw [Bool.and_eq_true, Bool.and_eq_true, List.any_eq_true, List.any_eq_true] at found
  obtain ⟨⟨present, ⟨_, literal⟩, listed, lost⟩, ⟨_, omission⟩, listedAlso, lostAlso⟩ := found
  obtain ⟨rfl, spelled, gone⟩ := of_decide_eq_true lost
  obtain ⟨rfl, slots, goneAlso⟩ := of_decide_eq_true lostAlso
  exact ⟨valid, edited, derived, by simpa using present, ⟨literal, listed, spelled, gone⟩,
    omission, listedAlso, slots, goneAlso⟩

end Grammar

end QueryGrammar
