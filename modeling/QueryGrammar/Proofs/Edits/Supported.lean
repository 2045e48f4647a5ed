import QueryGrammar.Proofs.Data.Halts
import QueryGrammar.Proofs.Edits.Pruning

namespace QueryGrammar.RuleMap

/-! The largest part of a rule map that supports itself.

Main statement: pruning ends with the largest part in which every symbol has a rule and every symbol
on the right of a rule is there.
-/

variable {κ : Type} {rules part whole : RuleMap κ} {symbols : List String} {symbol : String}
  {rule : Rule κ} {fuel : Nat}

/-- Every symbol has a rule, and every symbol on the right of a rule is one of them. -/
structure Supported (rules : RuleMap κ) : Prop where
  inhabited : ∀ symbol ∈ rules.keys, ∃ rule, rule ∈ rules.rulesOf symbol
  defined : ∀ symbol, ∀ rule ∈ rules.rulesOf symbol, ∀ slot ∈ rule.slots, slot.symbol ∈ rules.keys

/-- Some of the symbols, each with some of its rules in their order. -/
structure Within (part whole : RuleMap κ) : Prop where
  keys : ∀ symbol ∈ part.keys, symbol ∈ whole.keys
  rules : ∀ symbol ∈ part.keys, (part.rulesOf symbol).Sublist (whole.rulesOf symbol)

theorem Within.refl (rules : RuleMap κ) : rules.Within rules :=
  ⟨fun _ member => member, fun _ _ => .refl _⟩

theorem Within.trans {middle : RuleMap κ} (first : part.Within middle)
    (second : middle.Within whole) : part.Within whole where
  keys symbol member := second.keys symbol (first.keys symbol member)
  rules symbol member := (first.rules symbol member).trans
    (second.rules symbol (first.keys symbol member))

theorem mem_keys_of_mem_rulesOf (member : rule ∈ rules.rulesOf symbol) : symbol ∈ rules.keys := by
  unfold rulesOf at member
  cases found : rules.get? symbol with
  | none => simp [found] at member
  | some symbolRules => exact Dictionary.mem_keys_iff.2 ⟨symbolRules, found⟩

theorem Supported.exists_rule (supported : rules.Supported) (member : rule ∈ rules.rulesOf symbol)
    {slot : Slot} (own : slot ∈ rule.slots) : ∃ other, other ∈ rules.rulesOf slot.symbol :=
  supported.inhabited _ (supported.defined symbol rule member slot own)

/-! One round. -/

/-- What one round leaves. -/
abbrev round (rules : RuleMap κ) : RuleMap κ :=
  rules.withoutEmpty.restrict rules.withoutEmpty.keys

theorem keys_restrict : (rules.restrict symbols).keys = rules.keys := by
  simp [restrict, Dictionary.keys, Function.comp_def]

theorem round_within (rules : RuleMap κ) : rules.round.Within rules where
  keys symbol member := by
    rw [keys_restrict] at member
    obtain ⟨rule, own⟩ := mem_keys_withoutEmpty.1 member
    exact mem_keys_of_mem_rulesOf own
  rules symbol _ := by
    rw [rulesOf_restrict, rulesOf_withoutEmpty]
    exact List.filter_sublist

/-- A part that supports itself loses nothing in a round. -/
theorem Within.round (within : part.Within rules) (supported : part.Supported) :
    part.Within rules.round := by
  have known : ∀ symbol ∈ part.keys, symbol ∈ rules.withoutEmpty.keys := fun symbol member =>
    (supported.inhabited symbol member).elim fun rule own =>
      mem_keys_withoutEmpty.2 ⟨rule, (within.rules symbol member).subset own⟩
  refine ⟨fun symbol member => by rw [keys_restrict]; exact known symbol member, fun symbol own => ?_⟩
  have kept : (part.rulesOf symbol).filter (refersOnlyTo rules.withoutEmpty.keys) =
      part.rulesOf symbol := by
    refine List.filter_eq_self.2 fun rule member => refersOnlyTo_keys.2 fun slot inside => ?_
    exact known _ (supported.defined symbol rule member slot inside)
  rw [rulesOf_restrict, rulesOf_withoutEmpty, ← kept]
  exact (within.rules symbol own).filter _

/-! Counting rules. -/

theorem count_withoutEmpty : rules.withoutEmpty.count = rules.count := by
  have values : rules.withoutEmpty.values = rules.values.filter fun symbolRules =>
      !symbolRules.isEmpty := by
    rw [Dictionary.values, Dictionary.values, List.filter_map]
    rfl
  rw [count, count, values, List.flatten_filter_not_isEmpty]

theorem count_restrict :
    (rules.restrict symbols).count = (rules.values.flatten.filter (refersOnlyTo symbols)).length := by
  simp [count, restrict, Dictionary.values, List.filter_flatten, Function.comp_def]

theorem mem_values_of_mem_rulesOf (member : rule ∈ rules.rulesOf symbol) :
    rule ∈ rules.values.flatten := by
  unfold rulesOf at member
  cases found : rules.get? symbol with
  | none => simp [found] at member
  | some symbolRules =>
      rw [found, Option.getD_some] at member
      exact List.mem_flatten.2
        ⟨symbolRules, List.mem_map_of_mem (Dictionary.mem_entries_iff.2 found), member⟩

/-- A round that removes no rule has nothing to remove. -/
theorem round_supported (same : rules.round.count = rules.withoutEmpty.count) :
    rules.round.Supported := by
  have all : ∀ rule ∈ rules.withoutEmpty.values.flatten,
      refersOnlyTo rules.withoutEmpty.keys rule = true :=
    List.length_filter_eq_length_iff.1 (count_restrict.symm.trans same)
  have unchanged : ∀ symbol, rules.round.rulesOf symbol = rules.withoutEmpty.rulesOf symbol :=
    fun symbol => rulesOf_restrict.trans
      (List.filter_eq_self.2 fun rule member => all rule (mem_values_of_mem_rulesOf member))
  constructor
  · intro symbol member
    rw [keys_restrict] at member
    obtain ⟨rule, own⟩ := mem_keys_withoutEmpty.1 member
    exact ⟨rule, by rwa [unchanged, rulesOf_withoutEmpty]⟩
  · intro symbol rule member slot own
    rw [unchanged] at member
    rw [keys_restrict]
    exact refersOnlyTo_keys.1 (all rule (mem_values_of_mem_rulesOf member)) slot own

theorem count_round_lt (changed : (rules.round.count == rules.withoutEmpty.count) = false) :
    rules.round.count < rules.count := by
  have fewer : rules.round.count ≤ rules.withoutEmpty.count := by
    rw [count_restrict]
    exact List.length_filter_le ..
  exact lt_of_lt_of_eq (Nat.lt_of_le_of_ne fewer (beq_eq_false_iff_ne.1 changed)) count_withoutEmpty

/-! All rounds. -/

/-- Every round but the last removes a rule, so that the rounds end with one that has nothing to
remove. -/
theorem pruneRounds_supported (enough : rules.count < fuel) :
    (pruneRounds fuel rules).Supported := by
  induction fuel generalizing rules with
  | zero => exact absurd enough (Nat.not_lt_zero _)
  | succ fuel ih =>
      simp only [pruneRounds]
      split
      · rename_i same
        exact round_supported (beq_iff_eq.1 same)
      · rename_i changed
        have fewer := count_round_lt (Bool.eq_false_iff.2 changed)
        exact ih (Nat.lt_of_lt_of_le fewer (Nat.le_of_lt_succ enough))

/-- One round as a turn. The last one is that which removes no rule. -/
def pruneTurn (rules : RuleMap κ) : RuleMap κ ⊕ RuleMap κ :=
  if rules.round.count == rules.withoutEmpty.count then .inr rules.round else .inl rules.round

theorem prune_halts (rules : RuleMap κ) :
    ∃ rounds ≤ rules.count + 1, Halts pruneTurn rounds rules rules.prune := by
  refine halts_of_bounded (fun fuel => pruneRounds (fuel + 1)) count (fun rules nothing => ?_)
    (fun fuel rules => ?_) (Nat.le_refl _)
  · simp only [pruneTurn, pruneRounds]
    split
    · rfl
    · rename_i changed
      have fewer := count_round_lt (Bool.eq_false_iff.2 changed)
      exact absurd (nothing ▸ fewer) (Nat.not_lt_zero _)
  · rw [pruneTurn, pruneRounds]
    split
    · exact .inl rfl
    · rename_i changed
      exact .inr ⟨_, rfl, count_round_lt (Bool.eq_false_iff.2 changed), rfl⟩

/-- Further rounds leave what is left. -/
theorem pruneRounds_add (enough : rules.count < fuel) (more : Nat) :
    pruneRounds (fuel + more) rules = pruneRounds fuel rules := by
  induction fuel generalizing rules with
  | zero => exact absurd enough (Nat.not_lt_zero _)
  | succ fuel ih =>
      rw [Nat.add_right_comm]
      simp only [pruneRounds]
      split
      · rfl
      · rename_i changed
        have fewer := count_round_lt (Bool.eq_false_iff.2 changed)
        exact ih (Nat.lt_of_lt_of_le fewer (Nat.le_of_lt_succ enough))

theorem prune_supported (rules : RuleMap κ) : rules.prune.Supported :=
  pruneRounds_supported (Nat.lt_succ_self _)

theorem prune_within (rules : RuleMap κ) : rules.prune.Within rules :=
  pruneRounds_induction (motive := fun kept => kept.Within rules)
    (fun kept before => (round_within kept).trans before) (.refl rules)

theorem Within.prune (within : part.Within rules) (supported : part.Supported) :
    part.Within rules.prune :=
  pruneRounds_induction (motive := fun kept => part.Within kept)
    (fun _ before => before.round supported) within

end QueryGrammar.RuleMap
