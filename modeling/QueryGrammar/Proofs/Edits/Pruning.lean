import QueryGrammar.Edits.Pruning
import QueryGrammar.Proofs.Data.Dictionary
import QueryGrammar.Proofs.Data.Ordered

namespace QueryGrammar.RuleMap

/-! What pruning leaves.

Main statement: rules that only refer to symbols which rules among them are on are all kept.
-/

variable {κ : Type} {rules : RuleMap κ} {symbol : String} {rule : Rule κ} {fuel : Nat}

def rulesOf (rules : RuleMap κ) (symbol : String) : List (Rule κ) :=
  (rules.get? symbol).getD []

theorem rulesOf_withoutEmpty : rules.withoutEmpty.rulesOf symbol = rules.rulesOf symbol := by
  unfold rulesOf withoutEmpty
  rw [Dictionary.get?_filter]
  cases rules.get? symbol with
  | none => rfl
  | some symbolRules => cases symbolRules <;> rfl

theorem mem_keys_withoutEmpty :
    symbol ∈ rules.withoutEmpty.keys ↔ ∃ rule, rule ∈ rules.rulesOf symbol := by
  unfold rulesOf withoutEmpty
  rw [Dictionary.mem_keys_iff, Dictionary.get?_filter]
  cases rules.get? symbol with
  | none => simp
  | some symbolRules => cases symbolRules <;> simp [Option.filter]

theorem rulesOf_restrict {symbols : List String} :
    (rules.restrict symbols).rulesOf symbol =
      (rules.rulesOf symbol).filter (refersOnlyTo symbols) := by
  unfold rulesOf restrict
  rw [Dictionary.get?_map]
  cases rules.get? symbol <;> rfl

/-- Symbols are listed in order, so that halving the list finds them. -/
theorem refersOnlyTo_keys :
    refersOnlyTo rules.keys rule = true ↔ ∀ slot ∈ rule.slots, slot.symbol ∈ rules.keys := by
  have ascending : AscendingBy compare rules.keys :=
    List.pairwise_map.2 (rules.ordered.imp compareOfLessAndEq_eq_lt.2)
  rw [refersOnlyTo, List.all_eq_true]
  exact forall₂_congr fun slot _ => search_iff ascending

/-- A round keeps the rules that refer only to symbols with rules. -/
theorem mem_round : rule ∈ (rules.withoutEmpty.restrict rules.withoutEmpty.keys).rulesOf symbol ↔
    rule ∈ rules.rulesOf symbol ∧
      ∀ slot ∈ rule.slots, ∃ other, other ∈ rules.rulesOf slot.symbol := by
  rw [rulesOf_restrict, rulesOf_withoutEmpty, List.mem_filter, refersOnlyTo_keys]
  simp only [mem_keys_withoutEmpty]

/-- Whatever every round keeps is left in the end. -/
theorem pruneRounds_induction {motive : RuleMap κ → Prop}
    (round : ∀ rules, motive rules → motive (rules.withoutEmpty.restrict rules.withoutEmpty.keys))
    (start : motive rules) : motive (pruneRounds fuel rules) := by
  induction fuel generalizing rules with
  | zero => exact start
  | succ fuel ih =>
      simp only [pruneRounds]
      split
      · exact round rules start
      · exact ih (round rules start)

theorem mem_of_mem_pruneRounds (member : rule ∈ (pruneRounds fuel rules).rulesOf symbol) :
    rule ∈ rules.rulesOf symbol := by
  have subset : ∀ symbol, ∀ rule ∈ (pruneRounds fuel rules).rulesOf symbol,
      rule ∈ rules.rulesOf symbol :=
    pruneRounds_induction (motive := fun kept => ∀ symbol, ∀ rule ∈ kept.rulesOf symbol,
        rule ∈ rules.rulesOf symbol)
      (fun kept before symbol rule member => before symbol rule (mem_round.1 member).1)
      fun _ _ member => member
  exact subset symbol rule member

theorem mem_of_mem_prune (member : rule ∈ rules.prune.rulesOf symbol) :
    rule ∈ rules.rulesOf symbol :=
  mem_of_mem_pruneRounds member

/-- A rule is kept if its symbols are. -/
theorem mem_prune_of_defined (member : rule ∈ rules.rulesOf symbol)
    (defined : ∀ slot ∈ rule.slots, ∃ other, other ∈ rules.prune.rulesOf slot.symbol) :
    rule ∈ rules.prune.rulesOf symbol := by
  have kept : ∀ fuel, ∀ rules : RuleMap κ, rule ∈ rules.rulesOf symbol →
      (∀ slot ∈ rule.slots, ∃ other, other ∈ (pruneRounds fuel rules).rulesOf slot.symbol) →
      rule ∈ (pruneRounds fuel rules).rulesOf symbol := by
    intro fuel
    induction fuel with
    | zero => exact fun rules member _ => member
    | succ fuel ih =>
        intro rules member defined
        -- Symbols that are left in the end had rules in every round before.
        have round := mem_round.2 ⟨member, fun slot inside =>
          (defined slot inside).imp fun other last => mem_of_mem_pruneRounds last⟩
        simp only [pruneRounds] at defined ⊢
        split
        · exact round
        · rename_i changed
          simp only [changed, Bool.false_eq_true, if_false] at defined
          exact ih _ round defined
  exact kept _ rules member defined

/-- A rule is kept with another one on whose symbols its own are. -/
theorem mem_prune_of_slots {other : Rule κ} (member : rule ∈ rules.rulesOf symbol)
    (kept : other ∈ rules.prune.rulesOf symbol) (among : ∀ slot ∈ rule.slots, slot ∈ other.slots) :
    rule ∈ rules.prune.rulesOf symbol := by
  have together : other ∈ rules.prune.rulesOf symbol → rule ∈ rules.prune.rulesOf symbol :=
    pruneRounds_induction (motive := fun kept => other ∈ kept.rulesOf symbol →
        rule ∈ kept.rulesOf symbol)
      (fun kept before inside =>
        have ⟨last, defined⟩ := mem_round.1 inside
        mem_round.2 ⟨before last, fun slot own => defined slot (among slot own)⟩)
      fun _ => member
  exact together kept

/-- Rules that support each other are kept. -/
theorem mem_prune_of_supported {supported : String → Rule κ → Prop}
    (present : ∀ symbol rule, supported symbol rule → rule ∈ rules.rulesOf symbol)
    (support : ∀ symbol rule, supported symbol rule → ∀ slot ∈ rule.slots, ∃ other,
      supported slot.symbol other)
    (own : supported symbol rule) : rule ∈ rules.prune.rulesOf symbol := by
  have kept : ∀ symbol rule, supported symbol rule → rule ∈ rules.prune.rulesOf symbol :=
    pruneRounds_induction (motive := fun kept => ∀ symbol rule, supported symbol rule →
        rule ∈ kept.rulesOf symbol)
      (fun kept before symbol rule own => mem_round.2 ⟨before symbol rule own, fun slot member =>
        (support symbol rule own slot member).imp fun other => before slot.symbol other⟩)
      present
  exact kept symbol rule own

end QueryGrammar.RuleMap
