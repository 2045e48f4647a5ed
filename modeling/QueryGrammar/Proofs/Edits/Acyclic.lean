import QueryGrammar.Proofs.Edits.Offers

namespace QueryGrammar

/-! Derived rules close no cycle.

Main statement: where symbols are not spelled like literals, no symbol of a grammar with rules for
edits stands for itself.
-/

open Relation

variable {κ : Type} [Cost κ] {grammar edited : Grammar κ}

namespace Edits

variable {start finish : State κ}

/-- The edges that are looked at before an omission include every rule on a single symbol. -/
structure Guarded (grammar : Grammar κ) (state : State κ) : Prop where
  origin : ∀ symbol, ∀ rule ∈ state.rulesOf symbol, Origin grammar symbol rule
  given : ∀ symbol other, grammar.UnaryStep symbol other → state.unary.Leads symbol other
  covered : ∀ symbol, ∀ rule ∈ state.rulesOf symbol, ∀ slot, rule.slots = [slot] →
    state.unary.Leads symbol slot.symbol
  acyclic : ∀ symbol, ¬ TransGen state.unary.Leads symbol symbol

/-- A rule that takes the place of another with its key leads where that one led. -/
theorem Guarded.leads_of_key (guarded : Guarded grammar start) (apart : grammar.SpellsApart)
    {symbol : String} {old rule : Rule κ} {slot : Slot} (member : old ∈ start.rulesOf symbol)
    (origin : Origin grammar symbol rule) (same : Key.ofRule old = Key.ofRule rule)
    (slots : rule.slots = [slot]) : start.unary.Leads symbol slot.symbol := by
  have alike := sameAs_of_key apart origin (guarded.origin symbol old member) same.symm
  rw [Rule.production_of_slots slots] at alike
  obtain ⟨others, production, spelled⟩ := Production.sameAs_symbols alike
  obtain ⟨single, rfl, sameSymbol⟩ := List.map_eq_singleton_iff.1 spelled
  rw [← sameSymbol]
  exact guarded.covered symbol old member single (Rule.slots_of_production production)

theorem Guarded.step (guarded : Guarded grammar start) (apart : grammar.SpellsApart)
    (step : Step grammar start finish) : Guarded grammar finish := by
  have origin := step.origin guarded.origin
  have given : ∀ symbol other, grammar.UnaryStep symbol other → finish.unary.Leads symbol other :=
    fun symbol other unary => step.unary_mono (guarded.given symbol other unary)
  -- Only a rule that was offered can be one that the edges do not include yet.
  have covered : ∀ {place rule isNew}, start.Offers place rule isNew finish →
      (∀ slot, rule.slots = [slot] → finish.unary.Leads place slot.symbol) →
      ∀ symbol, ∀ rule ∈ finish.rulesOf symbol, ∀ slot, rule.slots = [slot] →
        finish.unary.Leads symbol slot.symbol := by
    intro place new isNew offers own symbol rule member slot slots
    by_cases here : symbol = place
    · subst here
      rcases offers.own.known rule member with rfl | before
      · exact own slot slots
      · exact step.unary_mono (guarded.covered symbol rule before slot slots)
    · rw [offers.others symbol here] at member
      exact step.unary_mono (guarded.covered symbol rule member slot slots)
  cases step with
  | same unchanged unary =>
      refine ⟨origin, given, fun symbol rule member slot slots => ?_, unary ▸ guarded.acyclic⟩
      exact unary ▸ guarded.covered symbol rule (unchanged symbol ▸ member) slot slots
  | given member solid offers unary =>
      refine ⟨origin, given, covered offers fun slot slots => ?_, unary ▸ guarded.acyclic⟩
      exact given _ _ ⟨_, member, slot, slots, rfl⟩
  | swap member slots priced offers unary =>
      refine ⟨origin, given, covered offers fun slot single => ?_, unary ▸ guarded.acyclic⟩
      cases single
  | @omission symbol base index kept omitted recipe isNew member allowed leaves found away unreached
      offers unary =>
      refine ⟨origin, given, covered offers fun slot single => ?_, ?_⟩
      · cases single
        cases isNew with
        | true => simp [unary, Edges.Leads]
        | false =>
            obtain ⟨old, before, same⟩ := offers.own.old rfl
            have leads := guarded.leads_of_key apart before
              (.omission member allowed leaves found) same rfl
            simpa [unary] using leads
      · rw [← Bool.not_eq_true, Edges.reaches_iff] at unreached
        rw [unary]
        split
        · exact Edges.acyclic_append guarded.acyclic away unreached
        · exact guarded.acyclic

theorem collect_guarded (apart : grammar.SpellsApart) (noCycle : grammar.HasNoUnaryCycle) :
    Guarded grammar (collect grammar) := by
  have all : ∀ {state}, Steps grammar ⟨{}, grammar.unaryEdges⟩ state → Guarded grammar state := by
    intro state steps
    induction steps with
    | refl =>
        refine ⟨by simp [State.rulesOf, RuleMap.rulesOf],
          fun _ _ => Grammar.leads_unaryEdges.2, by simp [State.rulesOf, RuleMap.rulesOf],
          fun symbol cycle => noCycle symbol ?_⟩
        exact TransGen.mono (fun _ _ => Grammar.leads_unaryEdges.1) _ _ cycle
    | tail _ step ih => exact ih.step apart step
  exact all collect_steps

end Edits

namespace Grammar

/-- No symbol stands for itself through rules on single symbols, be they given or derived. -/
theorem withEdits_hasNoUnaryCycle (valid : grammar.validate = .ok ())
    (apart : grammar.SpellsApart) (derived : grammar.withEdits = .ok edited) :
    edited.HasNoUnaryCycle := by
  have guarded := Edits.collect_guarded apart (hasNoUnaryCycle_of_validate valid)
  intro symbol cycle
  refine guarded.acyclic symbol (TransGen.mono (fun first second step => ?_) _ _ cycle)
  obtain ⟨rule, member, slot, slots, rfl⟩ := step
  rw [rulesOf_withEdits derived] at member
  exact guarded.covered first rule (RuleMap.mem_of_mem_prune member) slot slots

/-- Two symbols, each of which is the other one with something that may be left out. -/
def clause : Grammar Amount where
  start := "S"
  rules := .ofList [
    ("S", [.symbols ["T", "C"], .literal "s"]),
    ("T", [.symbols ["S", "C"], .literal "t"]),
    ("C", [.literal "c", .literal emptyLiteral])]
  concepts := {}

set_option maxRecDepth 100000 in
theorem withEdits_hasNoUnaryCycle_clause : clause.validate = .ok () ∧ clause.SpellsApart ∧
    ∃ edited, clause.withEdits = .ok edited ∧ edited.HasNoUnaryCycle := by
  have accepted : (clause.validate.toOption.any fun _ => true) = true := by decide +kernel
  have succeeds : (clause.withEdits.toOption.any fun _ => true) = true := by decide +kernel
  have apart : clause.SpellsApart := by decide +kernel
  obtain ⟨_, valid, -⟩ := exists_ok_of_any accepted
  obtain ⟨edited, derived, -⟩ := exists_ok_of_any succeeds
  exact ⟨valid, apart, edited, derived, withEdits_hasNoUnaryCycle valid apart derived⟩

/-- The same but for a literal spelled like a symbol, and dearer than leaving something out. -/
def homonym : Grammar Amount where
  start := "S"
  rules := .ofList [
    ("S", [{ production := .literal "T", cost := .known 1 }, .symbols ["T", "C"]]),
    ("T", [.literal "t", .symbols ["S", "C"]]),
    ("C", [.literal "c", .literal emptyLiteral])]
  concepts := {}

set_option maxRecDepth 100000 in
/-- A derived rule that takes the place of one on a literal leads on, which the guard misses. -/
theorem withEdits_homonym_cycle : homonym.validate = .ok () ∧
    ∃ edited, homonym.withEdits = .ok edited ∧ ¬ edited.HasNoUnaryCycle := by
  have accepted : (homonym.validate.toOption.any fun _ => true) = true := by decide +kernel
  have cycle : (homonym.withEdits.toOption.any fun edited => !decide edited.HasNoUnaryCycle) =
      true := by
    decide +kernel
  obtain ⟨_, valid, -⟩ := exists_ok_of_any accepted
  obtain ⟨edited, derived, closes⟩ := exists_ok_of_any cycle
  exact ⟨valid, edited, derived, by simpa using closes⟩

end Grammar

end QueryGrammar
