import QueryGrammar.Grammar.Builder
import QueryGrammar.Proofs.Data.Dictionary

namespace QueryGrammar

/-! Adding a rule to a builder.

Main statement: a rule goes behind the others of its symbol if it is accepted, and otherwise nothing
changes.
-/

variable {κ : Type} {builder : Builder κ} {symbol other : String} {rule : Rule κ}

namespace Builder

@[simp] theorem rulesOf_opened : (builder.opened symbol).rulesOf other = builder.rulesOf other := by
  unfold rulesOf opened
  rw [Dictionary.get?_alter]
  split <;> simp_all

theorem rulesOf_extended [Cost κ] : (builder.extended symbol rule).rulesOf other =
    if other = symbol then
      builder.rulesOf symbol ++ [priced rule (builder.rulesOf symbol).length]
    else builder.rulesOf other := by
  unfold extended
  simp only [rulesOf, Dictionary.get?_insert]
  split <;> rfl

/-- A rule is added if it is well formed and no other one of its symbol is the same up to forms. -/
structure Accepts [Cost κ] (builder : Builder κ) (symbol : String) (rule : Rule κ) : Prop where
  checked : rule.check symbol = .ok ()
  new : ∀ other ∈ builder.rulesOf symbol, other.production.sameAs rule.production = false

/-- A symbol that has a rule is known. -/
theorem opened_of_repeats (repeats : builder.repeats symbol rule = true) :
    builder.opened symbol = builder := by
  obtain ⟨other, member, -⟩ := List.any_eq_true.1 repeats
  unfold rulesOf at member
  cases found : builder.rules.get? symbol with
  | none => simp [found] at member
  | some rules =>
      rw [opened, Dictionary.alter_eq_self found (Option.getD_some ..)]

end Builder

namespace Build

theorem bind_eq {α β : Type} (first : Build κ α) (next : α → Build κ β) (builder : Builder κ) :
    (first >>= next) builder = match first builder with
      | (.ok value, after) => next value after
      | (.error cause, after) => (.error cause, after) := by
  simp only [Bind.bind, ExceptT.bind, ExceptT.mk, StateT.bind]
  rcases first builder with ⟨outcome | outcome, after⟩ <;> rfl

theorem exists_ok {step : Build κ Unit} (succeeds : (step builder).1.isOk = true) :
    ∃ after, step builder = (.ok (), after) := by
  rcases ran : step builder with ⟨cause | value, after⟩
  · rw [ran] at succeeds
    cases succeeds
  · exact ⟨after, rfl⟩

theorem exists_error {step : Build κ Unit} (fails : (step builder).1.isOk = false) :
    ∃ cause after, step builder = (.error cause, after) := by
  rcases ran : step builder with ⟨cause | value, after⟩
  · exact ⟨cause, after, rfl⟩
  · rw [ran] at fails
    cases fails

theorem attempt_cases (step : Builder κ → Except GrammarError (Builder κ)) (builder : Builder κ) :
    (∃ cause, attempt step builder = (.error cause, builder)) ∨
      ∃ changed, step builder = .ok changed ∧ attempt step builder = (.ok (), changed) := by
  unfold attempt
  cases step builder with
  | error cause => exact .inl ⟨cause, rfl⟩
  | ok changed => exact .inr ⟨changed, rfl, rfl⟩

/-- A symbol that is declared has no rules, as it had none before. -/
theorem newSymbol_cases (symbol : String) (builder : Builder κ) :
    (∃ cause, newSymbol symbol builder = (.error cause, builder)) ∨
      ∃ changed, newSymbol symbol builder = (.ok (), changed) ∧ changed.start = builder.start ∧
        builder.rulesOf symbol = [] ∧ ∀ other, changed.rulesOf other = builder.rulesOf other := by
  refine (attempt_cases (·.newSymbol? symbol) builder).imp_right fun given => ?_
  obtain ⟨changed, made, ran⟩ := given
  simp only [Builder.newSymbol?] at made
  split at made
  · cases made
  · rename_i absent
    cases made
    have none : builder.rulesOf symbol = [] := by
      simp_all [Builder.rulesOf, Dictionary.contains]
    refine ⟨_, ran, rfl, none, fun other => ?_⟩
    by_cases here : other = symbol
    · rw [here, none, Builder.rulesOf, Dictionary.get?_insert, if_pos rfl, Option.getD_some]
    · rw [Builder.rulesOf, Dictionary.get?_insert, if_neg here, Builder.rulesOf]

theorem define_cases (concept : Concept κ) (builder : Builder κ) :
    (∃ cause, define concept builder = (.error cause, builder)) ∨
      ∃ changed, define concept builder = (.ok (), changed) ∧ changed.start = builder.start ∧
        changed.rules = builder.rules := by
  refine (attempt_cases (·.define? concept) builder).imp_right fun given => ?_
  obtain ⟨changed, made, ran⟩ := given
  simp only [Builder.define?] at made
  split at made
  · cases made
  · cases made
    exact ⟨_, ran, rfl, rfl⟩

variable [Cost κ]

theorem addRule_ok (accepts : builder.Accepts symbol rule) :
    addRule symbol rule builder = (.ok (), (builder.opened symbol).extended symbol rule) := by
  have new : (builder.opened symbol).repeats symbol rule = false := by
    simpa [Builder.repeats] using accepts.new
  simp only [addRule, bind_eq, consult, attempt, accepts.checked, new, Bool.not_false, require,
    if_true]

/-- A symbol is known if the rule repeats one of its rules, so that nothing changes then either. -/
theorem addRule_error (refuses : ¬ builder.Accepts symbol rule) :
    ∃ cause, addRule symbol rule builder = (.error cause, builder) := by
  cases checked : rule.check symbol with
  | error cause => exact ⟨cause, by simp only [addRule, bind_eq, consult, checked]⟩
  | ok =>
      have known : builder.repeats symbol rule = true := by
        cases known : builder.repeats symbol rule with
        | true => rfl
        | false => exact absurd ⟨checked, by simpa [Builder.repeats] using known⟩ refuses
      refine ⟨.duplicateRule symbol rule.production.text, ?_⟩
      simp only [addRule, bind_eq, consult, attempt, checked, Builder.opened_of_repeats known, known,
        Bool.not_true, require, Bool.false_eq_true, if_false]

end Build
end QueryGrammar
