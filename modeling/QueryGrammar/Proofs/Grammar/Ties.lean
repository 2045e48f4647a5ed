import QueryGrammar.Proofs.Costs
import QueryGrammar.Proofs.Grammar.Operations

namespace QueryGrammar

/-! Rules of one symbol that cost the same.

Main statement: in a grammar that operations build without a failure, and with exact costs, no two
rules of a symbol tie just if none of them is given as much more than a later one as their places
set them apart.  So no two tie where the costs that are given do not fall.
-/

/-- Whether no rule costs as much more than a later one as its place makes up for. -/
def Staggered (given : List (Rule ℚ)) : Prop :=
  given.zipIdx.Pairwise fun earlier later =>
    earlier.1.meantCost ≠ later.1.meantCost + Cost.increment (later.2 - earlier.2)

instance : DecidablePred Staggered := fun given => by
  unfold Staggered
  infer_instance

/-- The increments of two places differ by that of their distance. -/
theorem Cost.increment_add {place later : Nat} (before : place ≤ later) :
    (increment (later - place) + increment place : ℚ) = increment later := by
  show ((later - place : Nat) : ℚ) / 10 ^ 7 + (place : ℚ) / 10 ^ 7 = (later : ℚ) / 10 ^ 7
  rw [Nat.cast_sub before, ← add_div, sub_add_cancel]

namespace Builder

variable {given : List (Rule ℚ)}

theorem priced_cost (rule : Rule ℚ) (place : Nat) :
    (priced rule place).cost = rule.meantCost + Cost.increment place :=
  rfl

theorem priced_cost_ne_iff {first second : Rule ℚ} {place later : Nat} (before : place < later) :
    (priced first place).cost ≠ (priced second later).cost ↔
      first.meantCost ≠ second.meantCost + Cost.increment (later - place) := by
  rw [priced_cost, priced_cost, ← Cost.increment_add before.le, ← add_assoc]
  exact not_congr (add_left_inj _)

theorem priced_cost_lt {first second : Rule ℚ} {place later : Nat} (before : place < later)
    (ascends : first.meantCost ≤ second.meantCost) :
    (priced first place).cost < (priced second later).cost := by
  have places : (place : ℚ) / 10 ^ 7 < (later : ℚ) / 10 ^ 7 :=
    div_lt_div_of_pos_right (Nat.cast_lt.2 before) (pow_pos Nat.ofNat_pos 7)
  rw [priced_cost, priced_cost]
  exact add_lt_add_of_le_of_lt ascends places

theorem pairwise_priced_ne_iff :
    (given.mapIdx fun place rule => priced rule place).Pairwise (·.cost ≠ ·.cost) ↔
      Staggered given := by
  simp only [Staggered, List.pairwise_iff_getElem, List.length_mapIdx, List.getElem_mapIdx,
    List.length_zipIdx, List.getElem_zipIdx, Nat.zero_add]
  refine forall₄_congr fun place later _ _ => forall_congr' fun before => ?_
  exact priced_cost_ne_iff before

theorem pairwise_priced_lt (ascends : given.Pairwise (·.meantCost ≤ ·.meantCost)) :
    (given.mapIdx fun place rule => priced rule place).Pairwise (·.cost < ·.cost) := by
  simp only [List.pairwise_iff_getElem, List.length_mapIdx, List.getElem_mapIdx] at ascends ⊢
  exact fun place later here there before =>
    priced_cost_lt before (ascends place later here there before)

end Builder

namespace Operation

variable {operations : List (Operation ℚ)} {builder after : Builder ℚ}

/-- Operations one after another, up to the first that fails. -/
def runAll {κ : Type} [Cost κ] : List (Operation κ) → Build κ Unit
  | [] => pure ()
  | operation :: rest => do
      operation.step
      runAll rest

/-- Operations that all succeed add all of their rules. -/
theorem runAll_eq (succeeded : runAll operations builder = (.ok (), after)) :
    run operations builder = after ∧ history operations builder = operations.flatMap rules := by
  induction operations generalizing builder with
  | nil =>
      cases succeeded
      exact ⟨rfl, rfl⟩
  | cons operation rest ih =>
      rw [runAll, Build.bind_eq] at succeeded
      obtain ⟨next, ran, all⟩ | ⟨cause, next, ran, -⟩ :=
        step_cases (Cost.isNonnegative_iff.2 le_rfl) rfl operation builder
      · rw [ran] at succeeded
        obtain ⟨same, others⟩ := ih succeeded
        rw [run, history, ran, all, others, List.flatMap_cons]
        exact ⟨same, rfl⟩
      · rw [ran] at succeeded
        cases succeeded

/-- Where operations on a new builder all succeed and a grammar is built, no two rules of a symbol
cost the same just if what was given for them, with their meanings, is staggered; and they cost more
and more if what was given does not fall. -/
theorem build_untied_iff {grammar : Grammar ℚ}
    (succeeded : runAll operations .empty = (.ok (), builder))
    (built : builder.finish = .ok grammar) (symbol : String) :
    ((grammar.rulesOf symbol).Pairwise (·.cost ≠ ·.cost) ↔
      Staggered (rulesAmong (operations.flatMap rules) symbol)) ∧
    ((rulesAmong (operations.flatMap rules) symbol).Pairwise (·.meantCost ≤ ·.meantCost) →
      (grammar.rulesOf symbol).Pairwise (·.cost < ·.cost)) := by
  obtain ⟨ran, added⟩ := runAll_eq succeeded
  have accounts : (run operations .empty).Accounts _ _ := run_accounts Builder.accounts_empty
  have stored : grammar.rulesOf symbol = builder.rulesOf symbol := by
    rw [Grammar.rulesOf, (builder.finish_ensures grammar built).1, Builder.rulesOf]
  rw [ran, added, List.nil_append] at accounts
  rw [stored, accounts.stored symbol]
  exact ⟨Builder.pairwise_priced_ne_iff, Builder.pairwise_priced_lt⟩

theorem exists_built (succeeds : (runAll operations .empty).1.isOk = true)
    (finishes : (runAll operations .empty).2.finish.isOk = true) : ∃ builder grammar,
    runAll operations .empty = (.ok (), builder) ∧ builder.finish = .ok grammar ∧
    ∀ symbol, grammar.rulesOf symbol = (runAll operations .empty).2.rulesOf symbol := by
  obtain ⟨builder, succeeded⟩ := Build.exists_ok succeeds
  rw [succeeded] at finishes ⊢
  cases built : builder.finish with
  | error cause =>
      rw [built] at finishes
      cases finishes
  | ok grammar =>
      refine ⟨builder, grammar, rfl, built, fun symbol => ?_⟩
      rw [Grammar.rulesOf, (builder.finish_ensures grammar built).1, Builder.rulesOf]

/-- A word of two forms with a misspelling, and two rules that are given less than that. -/
def falling : List (Operation ℚ) :=
  [.addWord "S" ⟨["a", "b"], [⟨"c", 2⟩], none, false⟩,
    .addRule "S" { Rule.literal "d" with cost := 1 },
    .addRule "S" { Rule.literal "e" with cost := 1 }]

set_option maxRecDepth 100000 in
theorem build_untied_falling : ∃ builder grammar,
    runAll falling .empty = (.ok (), builder) ∧ builder.finish = .ok grammar ∧
    (grammar.rulesOf "S").Pairwise (·.cost ≠ ·.cost) ∧
    (rulesAmong (falling.flatMap rules) "S").map (·.meantCost) = [0, 0, 2, 1, 1] := by
  have runs : (runAll falling .empty).1.isOk = true ∧
      (runAll falling .empty).2.finish.isOk = true := by
    decide +kernel
  obtain ⟨builder, grammar, succeeded, built, -⟩ := exists_built runs.1 runs.2
  exact ⟨builder, grammar, succeeded, built,
    (build_untied_iff succeeded built "S").1.2 (by decide +kernel), by decide +kernel⟩

/-- Two rules, of which the first is given as much more as the second is set apart. -/
def tying : List (Operation ℚ) :=
  [.addRule "S" { Rule.literal "a" with cost := 1 / 10 ^ 7 }, .addRule "S" (Rule.literal "b")]

set_option maxRecDepth 100000 in
theorem build_tied : ∃ builder grammar,
    runAll tying .empty = (.ok (), builder) ∧ builder.finish = .ok grammar ∧
    (grammar.rulesOf "S").map (·.cost) = [1 / 10 ^ 7, 1 / 10 ^ 7] := by
  have runs : (runAll tying .empty).1.isOk = true ∧
      (runAll tying .empty).2.finish.isOk = true ∧
      ((runAll tying .empty).2.rulesOf "S").map (·.cost) = [1 / 10 ^ 7, 1 / 10 ^ 7] := by
    decide +kernel
  obtain ⟨succeeds, finishes, costs⟩ := runs
  obtain ⟨builder, grammar, succeeded, built, same⟩ := exists_built succeeds finishes
  exact ⟨builder, grammar, succeeded, built, same "S" ▸ costs⟩

end Operation

end QueryGrammar
