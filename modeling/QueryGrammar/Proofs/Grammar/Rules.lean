import Mathlib.Data.List.Pairwise
import QueryGrammar.Grammar.Validity
import QueryGrammar.Proofs.Data.Dictionary
import QueryGrammar.Proofs.Data.Reach

namespace QueryGrammar

/-! The rules of a grammar, and which symbols stand for one another alone. -/

open Relation

/-- A result of which something holds is there. -/
theorem exists_ok_of_any {ε : Type u} {α : Type v} {result : Except ε α} {holds : α → Bool}
    (succeeds : result.toOption.any holds = true) : ∃ value, result = .ok value ∧ holds value = true := by
  cases result with
  | error cause => cases succeeds
  | ok value => exact ⟨value, rfl, succeeds⟩

/-- What a computation returns has a property. -/
def Ensures {ε : Type u} {α : Type v} (holds : α → Prop) (outcome : Except ε α) : Prop :=
  ∀ value, outcome = .ok value → holds value

namespace Ensures

variable {ε : Type u} {α β : Type v} {holds : α → Prop} {later : β → Prop} {outcome : Except ε α}
  {next : α → Except ε β}

theorem ok {value : α} (own : holds value) : Ensures holds (.ok value : Except ε α) := by
  intro result same
  cases same
  exact own

theorem bind (first : Ensures holds outcome) (go : ∀ value, holds value → Ensures later (next value)) :
    Ensures later (outcome >>= next) := by
  cases outcome with
  | error cause => exact fun _ failed => nomatch failed
  | ok value => exact go value (first value rfl)

/-- Nothing needs to be known of the first computation. -/
theorem after (go : ∀ value, Ensures later (next value)) : Ensures later (outcome >>= next) :=
  bind (fun _ _ => trivial : Ensures (fun _ => True) outcome) fun value _ => go value

theorem error {cause : ε} : Ensures holds (.error cause : Except ε α) :=
  fun _ failed => nomatch failed

section

variable {γ : Type v} {holds : α × γ → Prop} {outcome : Except ε (α × γ)}
  {next : α × γ → Except ε β}

theorem bindPair (first : Ensures holds outcome)
    (go : ∀ value rest, holds (value, rest) → Ensures later (next (value, rest))) :
    Ensures later (outcome >>= next) :=
  first.bind fun found => go found.1 found.2

theorem afterPair (go : ∀ value rest, Ensures later (next (value, rest))) :
    Ensures later (outcome >>= next) :=
  after fun found => go found.1 found.2

end

end Ensures

/-- One check after another succeeds if both do. -/
theorem bind_ok_iff {ε α : Type} {first : Except ε Unit} {next : Except ε α} {value : α} :
    (first >>= fun _ => next) = .ok value ↔ first = .ok () ∧ next = .ok value := by
  cases first <;> simp [bind, Except.bind]

theorem require_ok_iff {ε : Type} {condition : Bool} {cause : ε} :
    require condition cause = .ok () ↔ condition = true := by
  cases condition <;> simp [require]

variable {κ : Type}

namespace Production

variable {production : Production} {text : String} {slots : List Slot}

theorem sameAs_literal (same : (literal text).sameAs production = true) :
    production = .literal text := by
  cases production with
  | literal other => rw [beq_iff_eq.1 same]
  | symbols others => cases same

theorem sameAs_symbols (same : (symbols slots).sameAs production = true) :
    ∃ others, production = .symbols others ∧
      others.map Slot.symbol = slots.map Slot.symbol := by
  cases production with
  | literal other => cases same
  | symbols others => exact ⟨others, rfl, (beq_iff_eq.1 same).symm⟩

theorem sameAs_comm (first second : Production) : first.sameAs second = second.sameAs first := by
  cases first <;> cases second <;> simp only [sameAs, Bool.beq_comm]

theorem sameAs_slots {other : Production} (same : production.sameAs other = true) :
    production.slots.map Slot.symbol = other.slots.map Slot.symbol := by
  cases production with
  | literal text => rw [sameAs_literal same]
  | symbols slots =>
      obtain ⟨others, rfl, spelled⟩ := sameAs_symbols same
      exact spelled.symm

end Production

namespace Rule

variable {rule : Rule κ} {text : String} {slots : List Slot}

theorem isLiteral_iff : rule.isLiteral = true ↔ ∃ text, rule.production = .literal text := by
  unfold isLiteral Production.isLiteral
  cases rule.production <;> simp

theorem isLiteral_of_production (production : rule.production = .literal text) :
    rule.isLiteral = true :=
  isLiteral_iff.2 ⟨text, production⟩

theorem slots_of_isLiteral (isLiteral : rule.isLiteral = true) : rule.slots = [] := by
  obtain ⟨text, production⟩ := isLiteral_iff.1 isLiteral
  rw [Rule.slots, production, Production.slots]

theorem slots_of_production (production : rule.production = .symbols slots) :
    rule.slots = slots := by
  rw [Rule.slots, production, Production.slots]

theorem production_of_slots {slot : Slot} {rest : List Slot} (own : rule.slots = slot :: rest) :
    rule.production = .symbols (slot :: rest) := by
  unfold Rule.slots Production.slots at own
  split at own
  · rename_i production
    rw [production, own]
  · cases own

/-- Not both are base rules with the same production. -/
def Apart (rule other : Rule κ) : Prop :=
  rule.isBase = true → other.isBase = true → rule.production.sameAs other.production = false

instance : Std.Symm (Apart (κ := κ)) where
  symm rule other apart given givenAlso := by
    have differ := apart givenAlso given
    rwa [← Bool.not_eq_true, Production.sameAs_comm, Bool.not_eq_true] at differ

end Rule

namespace Grammar

variable {grammar : Grammar κ} {symbol other : String} {rule : Rule κ}

theorem mem_rulesOf : rule ∈ grammar.rulesOf symbol ↔
    ∃ rules, grammar.rules.get? symbol = some rules ∧ rule ∈ rules := by
  unfold rulesOf
  cases grammar.rules.get? symbol <;> simp

theorem mem_allRules : (symbol, rule) ∈ grammar.allRules ↔ rule ∈ grammar.rulesOf symbol := by
  simp only [allRules, List.mem_flatMap, List.mem_map, Prod.mk.injEq, Prod.exists, mem_rulesOf,
    Dictionary.mem_entries_iff]
  constructor
  · intro given
    obtain ⟨_, rules, found, _, member, rfl, rfl⟩ := given
    exact ⟨rules, found, member⟩
  · intro given
    obtain ⟨rules, found, member⟩ := given
    exact ⟨symbol, rules, found, rule, member, rfl, rfl⟩

/-- A symbol has a rule with a single other symbol on its right. -/
def UnaryStep (grammar : Grammar κ) (symbol other : String) : Prop :=
  ∃ rule ∈ grammar.rulesOf symbol, ∃ slot, rule.slots = [slot] ∧ slot.symbol = other

def HasNoUnaryCycle (grammar : Grammar κ) : Prop :=
  ∀ symbol, ¬ TransGen grammar.UnaryStep symbol symbol

theorem leads_unaryEdges : grammar.unaryEdges.Leads symbol other ↔ grammar.UnaryStep symbol other := by
  simp only [Edges.Leads, unaryEdges, List.mem_filterMap, Prod.exists, mem_allRules, UnaryStep]
  constructor
  · intro given
    obtain ⟨_, rule, member, made⟩ := given
    split at made
    · rename_i only slots
      cases made
      exact ⟨rule, member, only, slots, rfl⟩
    · cases made
  · intro given
    obtain ⟨rule, member, only, slots, rfl⟩ := given
    exact ⟨symbol, rule, member, by rw [slots]⟩

theorem hasNoUnaryCycle_iff : grammar.HasNoUnaryCycle ↔
    ∀ symbol ∈ grammar.rules.keys, ¬ grammar.unaryEdges.reaches symbol symbol = true := by
  constructor
  · intro noCycle symbol _ reached
    exact noCycle symbol (TransGen.mono (fun _ _ => leads_unaryEdges.1) _ _
      (Edges.reaches_iff.1 reached))
  · intro none symbol cycle
    have known : symbol ∈ grammar.rules.keys := by
      obtain ⟨next, ⟨rule, member, -⟩, -⟩ := TransGen.head'_iff.1 cycle
      obtain ⟨rules, found, -⟩ := mem_rulesOf.1 member
      exact Dictionary.mem_keys_iff.2 ⟨rules, found⟩
    exact none symbol known (Edges.reaches_iff.2
      (TransGen.mono (fun _ _ => leads_unaryEdges.2) _ _ cycle))

instance : Decidable grammar.HasNoUnaryCycle :=
  decidable_of_iff' _ hasNoUnaryCycle_iff

variable [Cost κ]

omit [Cost κ] in
theorem isDefined_iff : grammar.isDefined symbol = true ↔ ∃ rule, rule ∈ grammar.rulesOf symbol := by
  rw [isDefined, Bool.not_eq_true', List.isEmpty_eq_false_iff_exists_mem]

/-- A grammar that is accepted passes every check. -/
theorem validate_ok_iff : grammar.validate = .ok () ↔
    grammar.isDefined grammar.start = true ∧
      (∀ entry ∈ grammar.rules.entries, grammar.checkSymbol entry = .ok ()) ∧
      grammar.checkReachable = .ok () ∧ grammar.checkUnaryCycles = .ok () := by
  simp only [validate, bind_ok_iff, require_ok_iff, checkAll_ok_iff]

omit [Cost κ] in
theorem repeats_eq_false_iff {earlier : List (Rule κ)} :
    repeats earlier rule = false ↔ ∀ other ∈ earlier, other.Apart rule := by
  simp only [repeats, Bool.and_eq_false_imp, List.any_eq_false, Rule.Apart, Bool.not_eq_true]
  exact ⟨fun differ other known base also => differ also other known base,
    fun apart also other known base => apart other known base also⟩

theorem checkRule_ok_iff {earlier : List (Rule κ)} :
    grammar.checkRule symbol earlier rule = .ok () ↔ rule.check symbol = .ok () ∧
      (∀ slot ∈ rule.slots, grammar.isDefined slot.symbol = true) ∧
      ∀ other ∈ earlier, other.Apart rule := by
  simp only [checkRule, bind_ok_iff, checkAll_ok_iff, require_ok_iff,
    Bool.not_eq_true', repeats_eq_false_iff]

/-- Every rule is checked by itself, against those before it among `rules` and against the ones
taken up earlier. -/
theorem checkRules_ok_iff {earlier rules : List (Rule κ)} :
    grammar.checkRules symbol earlier rules = .ok () ↔
      (∀ rule ∈ rules, rule.check symbol = .ok () ∧
        ∀ slot ∈ rule.slots, grammar.isDefined slot.symbol = true) ∧
      rules.Pairwise Rule.Apart ∧ ∀ rule ∈ rules, ∀ other ∈ earlier, other.Apart rule := by
  induction rules generalizing earlier with
  | nil => simp [checkRules]
  | cons first rest ih =>
      simp only [checkRules, bind_ok_iff, checkRule_ok_iff, ih, List.mem_append,
        List.mem_singleton, List.forall_mem_cons, List.pairwise_cons]
      constructor
      · intro given
        obtain ⟨⟨own, defined, before⟩, checked, apart, after⟩ := given
        exact ⟨⟨⟨own, defined⟩, checked⟩, ⟨fun rule member => after rule member first (.inr rfl), apart⟩,
          before, fun rule member other known => after rule member other (.inl known)⟩
      · intro given
        obtain ⟨⟨⟨own, defined⟩, checked⟩, ⟨later, apart⟩, before, after⟩ := given
        refine ⟨⟨own, defined, before⟩, checked, apart, fun rule member other known => ?_⟩
        rcases known with known | rfl
        · exact after rule member other known
        · exact later rule member

theorem checkSymbol_ok_iff {rules : List (Rule κ)} :
    grammar.checkSymbol (symbol, rules) = .ok () ↔
      rules ≠ [] ∧ grammar.checkRules symbol [] rules = .ok () := by
  simp only [checkSymbol, bind_ok_iff, require_ok_iff, Bool.not_eq_true',
    List.isEmpty_eq_false_iff]

theorem checkRules_of_validate (valid : grammar.validate = .ok ()) {rules : List (Rule κ)}
    (found : grammar.rules.get? symbol = some rules) :
    grammar.checkRules symbol [] rules = .ok () :=
  (checkSymbol_ok_iff.1 ((validate_ok_iff.1 valid).2.1 _ (Dictionary.mem_entries_iff.2 found))).2

theorem check_of_validate (valid : grammar.validate = .ok ())
    (member : rule ∈ grammar.rulesOf symbol) : rule.check symbol = .ok () := by
  obtain ⟨rules, found, inside⟩ := mem_rulesOf.1 member
  exact ((checkRules_ok_iff.1 (checkRules_of_validate valid found)).1 rule inside).1

/-- A rule that is accepted has a literal, one symbol or two on its right. -/
theorem production_of_validate (valid : grammar.validate = .ok ())
    (member : rule ∈ grammar.rulesOf symbol) :
    (∃ text, rule.production = .literal text) ∨ (∃ only, rule.production = .symbols [only]) ∨
      ∃ first second, rule.production = .symbols [first, second] := by
  have checked := check_of_validate valid member
  unfold Rule.check at checked
  split at checked
  · cases checked
  · cases checked
  · rename_i none several
    cases production : rule.production with
    | literal text => exact .inl ⟨text, rfl⟩
    | symbols slots =>
        match slots with
        | [] => exact absurd production none
        | [only] => exact .inr (.inl ⟨only, rfl⟩)
        | [first, second] => exact .inr (.inr ⟨first, second, rfl⟩)
        | first :: second :: third :: rest => exact absurd production (several first second third rest)

/-- Rules on one symbol with the same production are one rule, unless they are derived. -/
theorem eq_of_sameAs (valid : grammar.validate = .ok ()) {other : Rule κ}
    (member : rule ∈ grammar.rulesOf symbol) (also : other ∈ grammar.rulesOf symbol)
    (given : rule.isBase = true) (givenAlso : other.isBase = true)
    (same : rule.production.sameAs other.production = true) : rule = other := by
  obtain ⟨rules, found, inside⟩ := mem_rulesOf.1 member
  obtain ⟨_, again, insideAlso⟩ := mem_rulesOf.1 also
  cases found.symm.trans again
  have apart := (checkRules_ok_iff.1 (checkRules_of_validate valid found)).2.1
  by_contra differ
  rw [apart.forall inside insideAlso differ given givenAlso] at same
  cases same

omit [Cost κ] in
theorem checkUnaryCycles_ok_iff : grammar.checkUnaryCycles = .ok () ↔ grammar.HasNoUnaryCycle := by
  rw [hasNoUnaryCycle_iff, ← List.find?_eq_none, checkUnaryCycles]
  split <;> simp_all

theorem hasNoUnaryCycle_of_validate (valid : grammar.validate = .ok ()) :
    grammar.HasNoUnaryCycle :=
  checkUnaryCycles_ok_iff.1 (validate_ok_iff.1 valid).2.2.2

end Grammar

end QueryGrammar
