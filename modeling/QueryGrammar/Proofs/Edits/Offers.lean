import QueryGrammar.Edits.Derivation
import QueryGrammar.Proofs.Edits.Pruning
import QueryGrammar.Proofs.Grammar.Rules

namespace QueryGrammar

/-! How the rules of a grammar and those derived from them are collected.

Every rule that is taken up offers a few rules to its symbol.  What a single offer can do is said by
`Edits.Step`, from which everything about the rules collected is proved by induction on the steps.
-/

open Relation

variable {κ : Type}

/-- No symbol has a rule on a literal that is spelled like a symbol in another of its rules. -/
def Grammar.SpellsApart (grammar : Grammar κ) : Prop :=
  ∀ symbol, ∀ rule ∈ grammar.rulesOf symbol, ∀ text, rule.production = .literal text →
    ∀ other ∈ grammar.rulesOf symbol, ∀ slot ∈ other.slots, slot.symbol ≠ text

theorem Grammar.spellsApart_iff {grammar : Grammar κ} : grammar.SpellsApart ↔
    ∀ entry ∈ grammar.allRules, ∀ other ∈ grammar.rulesOf entry.1, ∀ slot ∈ other.slots,
      entry.2.production ≠ .literal slot.symbol := by
  constructor
  · intro apart entry member other own slot inside literal
    exact apart entry.1 entry.2 (Grammar.mem_allRules.1 member) _ literal other own slot inside rfl
  · intro apart symbol rule member text literal other own slot inside same
    exact apart (symbol, rule) (Grammar.mem_allRules.2 member) other own slot inside
      (literal.trans (congrArg _ same.symm))

instance {grammar : Grammar κ} : Decidable grammar.SpellsApart :=
  decidable_of_iff' _ Grammar.spellsApart_iff

namespace Edits

section

variable {base : Rule κ} {first second kept omitted : Slot} {index : Nat}

/-- Which symbol of a binary rule is kept, which one is left out, and where the latter belongs. -/
inductive Leaves (base : Rule κ) : Nat → Slot → Slot → Prop
  | first {first second : Slot} : base.slots = [first, second] → Leaves base 1 first second
  | second {first second : Slot} : base.slots = [first, second] → Leaves base 0 second first

theorem Leaves.kept_mem (leaves : Leaves base index kept omitted) : kept ∈ base.slots := by
  cases leaves with
  | first slots => simp [slots]
  | second slots => simp [slots]

end

variable [Cost κ] {grammar : Grammar κ} {symbol other : String} {rule base : Rule κ}
  {before after rules : List (Rule κ)} {isNew : Bool} {first second kept omitted : Slot}
  {index : Nat} {recipe : Recipe κ} {penalty : κ}

@[simp] theorem slots_omitting : (omitting base index kept omitted recipe).slots = [kept] :=
  rfl

@[simp] theorem slots_swapping : (swapping base first second penalty).slots = [second, first] :=
  rfl

@[simp] theorem cost_omitting :
    (omitting base index kept omitted recipe).cost = base.cost + recipe.cost :=
  rfl

@[simp] theorem cost_swapping : (swapping base first second penalty).cost = base.cost + penalty :=
  rfl

/-- Where a rule on a symbol comes from. -/
inductive Origin (grammar : Grammar κ) (symbol : String) : Rule κ → Prop
  | given {rule : Rule κ} : rule ∈ grammar.rulesOf symbol →
      rule.production.isEmptyLiteral = false → Origin grammar symbol rule
  | omission {base : Rule κ} {index : Nat} {kept omitted : Slot} {recipe : Recipe κ} :
      base ∈ grammar.rulesOf symbol → base.noInsert = false → Leaves base index kept omitted →
      grammar.recipes.get? omitted.symbol = some recipe →
      Origin grammar symbol (omitting base index kept omitted recipe)
  | swap {base : Rule κ} {first second : Slot} {penalty : κ} : base ∈ grammar.rulesOf symbol →
      base.slots = [first, second] → base.transpositionCost = some penalty →
      Origin grammar symbol (swapping base first second penalty)

/-- What becomes of the rules on a symbol when another is offered. -/
structure Offered (before : List (Rule κ)) (rule : Rule κ) (after : List (Rule κ)) (isNew : Bool) :
    Prop where
  known : ∀ other ∈ after, other = rule ∨ other ∈ before
  own : rule ∈ after ∨ ∃ kept ∈ after, Key.ofRule kept = Key.ofRule rule ∧
    Cost.less rule.cost kept.cost = false
  keeps : ∀ other ∈ before, other ∈ after ∨ Key.ofRule rule = Key.ofRule other ∧ rule ∈ after ∧
    Cost.less rule.cost other.cost = true
  old : isNew = false → ∃ other ∈ before, Key.ofRule other = Key.ofRule rule

theorem offer_spec (rule : Rule κ) (rules : List (Rule κ)) :
    Offered rules rule (offer rule rules).1 (offer rule rules).2 := by
  unfold offer
  induction rules with
  | nil => exact ⟨by simp [offerWith], .inl (by simp [offerWith]), by simp, by simp [offerWith]⟩
  | cons first rest ih =>
      by_cases same : Key.ofRule first = Key.ofRule rule
      · cases cheaper : Cost.less rule.cost first.cost with
        | true =>
            simp only [offerWith, same, if_true, cheaper]
            refine ⟨fun other member => ?_, .inl (List.mem_cons_self ..), fun other member => ?_,
              fun _ => ⟨first, List.mem_cons_self .., same⟩⟩
            · exact (List.mem_cons.1 member).imp_right (List.mem_cons_of_mem _)
            · rcases List.mem_cons.1 member with rfl | later
              · exact .inr ⟨same.symm, List.mem_cons_self .., cheaper⟩
              · exact .inl (List.mem_cons_of_mem _ later)
        | false =>
            simp only [offerWith, same, if_true, cheaper, Bool.false_eq_true, if_false]
            exact ⟨fun other member => .inr member,
              .inr ⟨first, List.mem_cons_self .., same, cheaper⟩, fun other member => .inl member,
              fun _ => ⟨first, List.mem_cons_self .., same⟩⟩
      · simp only [offerWith, same, if_false]
        refine ⟨fun other member => ?_, ?_, fun other member => ?_, fun old => ?_⟩
        · rcases List.mem_cons.1 member with rfl | later
          · exact .inr (List.mem_cons_self ..)
          · exact (ih.known other later).imp_right (List.mem_cons_of_mem _)
        · rcases ih.own with own | ⟨kept, member, rest⟩
          · exact .inl (List.mem_cons_of_mem _ own)
          · exact .inr ⟨kept, List.mem_cons_of_mem _ member, rest⟩
        · rcases List.mem_cons.1 member with rfl | later
          · exact .inl (List.mem_cons_self ..)
          · rcases ih.keeps other later with inside | ⟨key, inside, cheaper⟩
            · exact .inl (List.mem_cons_of_mem _ inside)
            · exact .inr ⟨key, List.mem_cons_of_mem _ inside, cheaper⟩
        · obtain ⟨other, member, key⟩ := ih.old old
          exact ⟨other, List.mem_cons_of_mem _ member, key⟩

theorem Offered.exists_key (offered : Offered before rule after isNew) :
    ∃ kept ∈ after, Key.ofRule kept = Key.ofRule rule := by
  rcases offered.own with own | ⟨kept, member, key, -⟩
  · exact ⟨rule, own, rfl⟩
  · exact ⟨kept, member, key⟩

theorem Offered.keeps_key (offered : Offered before rule after isNew) {old : Rule κ}
    (member : old ∈ before) : ∃ kept ∈ after, Key.ofRule kept = Key.ofRule old := by
  rcases offered.keeps old member with inside | ⟨key, inside, -⟩
  · exact ⟨old, inside, rfl⟩
  · exact ⟨rule, inside, key⟩

namespace State

def rulesOf (state : State κ) (symbol : String) : List (Rule κ) :=
  state.rules.rulesOf symbol

def Has (state : State κ) (symbol : String) (key : Key) : Prop :=
  ∃ rule ∈ state.rulesOf symbol, Key.ofRule rule = key

/-- A rule is offered to a symbol; other symbols are left alone. -/
structure Offers (before : State κ) (symbol : String) (rule : Rule κ) (isNew : Bool)
    (after : State κ) : Prop where
  own : Offered (before.rulesOf symbol) rule (after.rulesOf symbol) isNew
  others : ∀ other, other ≠ symbol → after.rulesOf other = before.rulesOf other

theorem rulesOf_offer (state : State κ) (symbol other : String) (rule : Rule κ) :
    (state.offer symbol rule).1.rulesOf other =
      if other = symbol then (Edits.offer rule (state.rulesOf symbol)).1
      else state.rulesOf other := by
  unfold rulesOf RuleMap.rulesOf offer
  rw [Dictionary.get?_insert]
  split <;> rfl

theorem offer_offers (state : State κ) (symbol : String) (rule : Rule κ) :
    state.Offers symbol rule (state.offer symbol rule).2 (state.offer symbol rule).1 := by
  refine ⟨?_, fun other apart => by rw [rulesOf_offer, if_neg apart]⟩
  rw [rulesOf_offer, if_pos rfl]
  exact offer_spec rule (state.rulesOf symbol)

end State

/-- What taking up a rule does, one offer at a time. -/
inductive Step (grammar : Grammar κ) (before after : State κ) : Prop
  | same : (∀ symbol, after.rulesOf symbol = before.rulesOf symbol) →
      after.unary = before.unary → Step grammar before after
  | given {symbol : String} {rule : Rule κ} {isNew : Bool} : rule ∈ grammar.rulesOf symbol →
      rule.production.isEmptyLiteral = false → before.Offers symbol rule isNew after →
      after.unary = before.unary → Step grammar before after
  | omission {symbol : String} {base : Rule κ} {index : Nat} {kept omitted : Slot}
      {recipe : Recipe κ} {isNew : Bool} : base ∈ grammar.rulesOf symbol → base.noInsert = false →
      Leaves base index kept omitted → grammar.recipes.get? omitted.symbol = some recipe →
      kept.symbol ≠ symbol → before.unary.reaches kept.symbol symbol = false →
      before.Offers symbol (omitting base index kept omitted recipe) isNew after →
      after.unary = (if isNew then before.unary ++ [(symbol, kept.symbol)] else before.unary) →
      Step grammar before after
  | swap {symbol : String} {base : Rule κ} {first second : Slot} {penalty : κ} {isNew : Bool} :
      base ∈ grammar.rulesOf symbol → base.slots = [first, second] →
      base.transpositionCost = some penalty →
      before.Offers symbol (swapping base first second penalty) isNew after →
      after.unary = before.unary → Step grammar before after

namespace Step

variable {start finish : State κ} {key : Key}

theorem offers (step : Step grammar start finish) :
    (∀ symbol, finish.rulesOf symbol = start.rulesOf symbol) ∨
      ∃ symbol rule isNew, Origin grammar symbol rule ∧ start.Offers symbol rule isNew finish := by
  cases step with
  | same unchanged => exact .inl unchanged
  | given member solid offers => exact .inr ⟨_, _, _, .given member solid, offers⟩
  | omission member allowed leaves found _ _ offers =>
      exact .inr ⟨_, _, _, .omission member allowed leaves found, offers⟩
  | swap member slots priced offers => exact .inr ⟨_, _, _, .swap member slots priced, offers⟩

theorem unary_mono (step : Step grammar start finish) {vertex : String}
    (leads : start.unary.Leads vertex other) : finish.unary.Leads vertex other := by
  cases step with
  | same _ unary | given _ _ _ unary | swap _ _ _ _ unary => rwa [unary]
  | omission _ _ _ _ _ _ _ unary =>
      rw [unary]
      split
      · exact leads.mono _
      · exact leads

theorem has (step : Step grammar start finish) (known : start.Has symbol key) :
    finish.Has symbol key := by
  rcases step.offers with unchanged | ⟨place, rule, isNew, -, offers⟩
  · rwa [State.Has, unchanged]
  · obtain ⟨old, member, rfl⟩ := known
    by_cases here : symbol = place
    · subst here
      exact offers.own.keeps_key member
    · rw [State.Has, offers.others symbol here]
      exact ⟨old, member, rfl⟩

theorem origin (step : Step grammar start finish)
    (known : ∀ symbol, ∀ rule ∈ start.rulesOf symbol, Origin grammar symbol rule) (symbol : String)
    (rule : Rule κ) (member : rule ∈ finish.rulesOf symbol) : Origin grammar symbol rule := by
  rcases step.offers with unchanged | ⟨place, new, isNew, origin, offers⟩
  · exact known symbol rule (unchanged symbol ▸ member)
  · by_cases here : symbol = place
    · subst here
      rcases offers.own.known rule member with rfl | before
      · exact origin
      · exact known symbol rule before
    · exact known symbol rule (offers.others symbol here ▸ member)

end Step

abbrev Steps (grammar : Grammar κ) : State κ → State κ → Prop :=
  ReflTransGen (Step grammar)

namespace Steps

variable {start finish : State κ} {key : Key}

theorem unary_mono (steps : Steps grammar start finish) {vertex : String}
    (leads : start.unary.Leads vertex other) : finish.unary.Leads vertex other := by
  induction steps with
  | refl => exact leads
  | tail _ step ih => exact step.unary_mono ih

theorem has (steps : Steps grammar start finish) (known : start.Has symbol key) :
    finish.Has symbol key := by
  induction steps with
  | refl => exact known
  | tail _ step ih => exact step.has ih

/-- What leads nowhere in the end never did. -/
theorem reaches_eq_false (steps : Steps grammar start finish) {vertex : String}
    (away : finish.unary.reaches vertex other = false) :
    start.unary.reaches vertex other = false := by
  rw [← Bool.not_eq_true, Edges.reaches_iff] at away ⊢
  exact fun path => away (TransGen.mono (fun _ _ => steps.unary_mono) _ _ path)

end Steps

/-- An omission is refused only where a symbol would lead back to itself. -/
theorem offerOmission_spec (state : State κ) (member : base ∈ grammar.rulesOf symbol)
    (allowed : base.noInsert = false) (leaves : Leaves base index kept omitted) :
    Step grammar state (state.offerOmission grammar.recipes symbol base index kept omitted) ∧
      ∀ recipe, grammar.recipes.get? omitted.symbol = some recipe → kept.symbol ≠ symbol →
        state.unary.reaches kept.symbol symbol = false →
        (state.offerOmission grammar.recipes symbol base index kept omitted).Has symbol
          (Key.ofRule (omitting base index kept omitted recipe)) := by
  cases found : grammar.recipes.get? omitted.symbol with
  | none =>
      refine ⟨.same ?_ ?_, by simp⟩ <;> simp [State.offerOmission, found]
  | some recipe =>
      cases refused : (kept.symbol == symbol || state.unary.reaches kept.symbol symbol) with
      | true =>
          refine ⟨.same ?_ ?_, fun _ _ apart away => ?_⟩
          · simp [State.offerOmission, found, refused]
          · simp [State.offerOmission, found, refused]
          · simp [apart, away] at refused
      | false =>
          obtain ⟨apart, away⟩ : kept.symbol ≠ symbol ∧
              state.unary.reaches kept.symbol symbol = false := by simpa using refused
          have offers := state.offer_offers symbol (omitting base index kept omitted recipe)
          have own : ∀ unary, State.Offers state symbol (omitting base index kept omitted recipe)
              (state.offer symbol (omitting base index kept omitted recipe)).2
              { (state.offer symbol (omitting base index kept omitted recipe)).1 with unary } :=
            fun _ => ⟨offers.own, offers.others⟩
          have result : state.offerOmission grammar.recipes symbol base index kept omitted =
              { (state.offer symbol (omitting base index kept omitted recipe)).1 with
                unary := if (state.offer symbol (omitting base index kept omitted recipe)).2 then
                  state.unary ++ [(symbol, kept.symbol)] else state.unary } := by
            simp only [State.offerOmission, found, refused, Bool.false_eq_true, if_false]
            split <;> simp_all [State.offer]
          rw [result]
          refine ⟨.omission member allowed leaves found apart away (own _) rfl, ?_⟩
          intro other same _ _
          cases same
          exact offers.own.exists_key

/-- Every omission that a rule allows is offered, unless it is refused. -/
def State.Omits (state : State κ) (grammar : Grammar κ) (symbol : String) (base : Rule κ) : Prop :=
  ∀ index kept omitted recipe, base.noInsert = false → Leaves base index kept omitted →
    grammar.recipes.get? omitted.symbol = some recipe → kept.symbol ≠ symbol →
    state.unary.reaches kept.symbol symbol = false →
    state.Has symbol (Key.ofRule (omitting base index kept omitted recipe))

theorem State.Omits.mono {start finish : State κ} (steps : Steps grammar start finish)
    (omits : start.Omits grammar symbol base) : finish.Omits grammar symbol base :=
  -- Edges are never taken away, so the guard let through before what it lets through in the end.
  fun index kept omitted recipe allowed leaves found apart away =>
    steps.has (omits index kept omitted recipe allowed leaves found apart
      (steps.reaches_eq_false away))

theorem offerEdits_spec (state : State κ) (member : base ∈ grammar.rulesOf symbol)
    (slots : base.slots = [first, second]) :
    Steps grammar state (state.offerEdits grammar.recipes symbol base first second) ∧
      (state.offerEdits grammar.recipes symbol base first second).Omits grammar symbol base := by
  -- Both omissions come before the swap, whether there is a swap or not.
  have omissions : ∃ middle, Steps grammar state middle ∧ middle.Omits grammar symbol base ∧
      (base.transpositionCost = none →
        state.offerEdits grammar.recipes symbol base first second = middle) ∧
      ∀ penalty, base.transpositionCost = some penalty →
        state.offerEdits grammar.recipes symbol base first second =
          (middle.offer symbol (swapping base first second penalty)).1 := by
    cases allowed : base.noInsert with
    | true =>
        refine ⟨state, .refl, fun _ _ _ _ other => ?_, fun none => ?_, fun penalty priced => ?_⟩
        · rw [allowed] at other
          cases other
        · simp [State.offerEdits, allowed, none]
        · simp [State.offerEdits, allowed, priced]
    | false =>
        obtain ⟨one, left⟩ := offerOmission_spec state member allowed (.first slots)
        obtain ⟨two, right⟩ := offerOmission_spec
          (state.offerOmission grammar.recipes symbol base 1 first second) member allowed
          (.second slots)
        refine ⟨_, (ReflTransGen.single one).tail two, ?_, fun none => ?_, fun penalty priced => ?_⟩
        · intro index kept omitted recipe _ leaves found apart away
          have later := Steps.reaches_eq_false (.single two) away
          cases leaves with
          | first same =>
              cases slots.symm.trans same
              exact two.has (left recipe found apart (Steps.reaches_eq_false (.single one) later))
          | second same =>
              cases slots.symm.trans same
              exact right recipe found apart later
        · simp [State.offerEdits, allowed, none]
        · simp [State.offerEdits, allowed, priced]
  obtain ⟨middle, steps, omits, without, swapped⟩ := omissions
  cases priced : base.transpositionCost with
  | none => exact without priced ▸ ⟨steps, omits⟩
  | some penalty =>
      have last :
          Step grammar middle (middle.offer symbol (swapping base first second penalty)).1 :=
        .swap member slots priced (middle.offer_offers symbol _) rfl
      exact swapped penalty priced ▸ ⟨steps.tail last, omits.mono (.single last)⟩

theorem take_spec (state : State κ) (member : rule ∈ grammar.rulesOf symbol) :
    Steps grammar state (state.take grammar.recipes symbol rule) ∧
      (rule.production.isEmptyLiteral = false →
        (state.take grammar.recipes symbol rule).Has symbol (Key.ofRule rule) ∧
        (state.take grammar.recipes symbol rule).Omits grammar symbol rule) := by
  cases empty : rule.production.isEmptyLiteral with
  | true =>
      refine ⟨.single (.same (fun other => ?_) ?_), by simp⟩
      · simp only [State.take, empty, if_true, State.rulesOf, RuleMap.rulesOf,
          Dictionary.get?_alter]
        split <;> simp_all
      · simp [State.take, empty]
  | false =>
      have offers := state.offer_offers symbol rule
      have one : Step grammar state (state.offer symbol rule).1 := .given member empty offers rfl
      by_cases binary : ∃ first second, rule.slots = [first, second]
      · obtain ⟨first, second, slots⟩ := binary
        obtain ⟨steps, omits⟩ := offerEdits_spec (state.offer symbol rule).1 member slots
        simp only [State.take, empty, Bool.false_eq_true, if_false, slots]
        exact ⟨steps.head one, fun _ => ⟨steps.has offers.own.exists_key, omits⟩⟩
      · have result : state.take grammar.recipes symbol rule = (state.offer symbol rule).1 := by
          simp only [State.take, empty, Bool.false_eq_true, if_false]
          split
          · rename_i first second slots
            exact absurd ⟨first, second, slots⟩ binary
          · rfl
        rw [result]
        refine ⟨.single one, fun _ => ⟨offers.own.exists_key, ?_⟩⟩
        intro _ _ _ _ _ leaves
        cases leaves with
        | first slots | second slots => exact absurd ⟨_, _, slots⟩ binary

def State.takeAll (grammar : Grammar κ) (state : State κ) (entries : List (String × Rule κ)) :
    State κ :=
  entries.foldl (fun state (symbol, rule) => state.take grammar.recipes symbol rule) state

theorem takeAll_spec {entries : List (String × Rule κ)} (state : State κ)
    (given : ∀ entry ∈ entries, entry.2 ∈ grammar.rulesOf entry.1) :
    Steps grammar state (state.takeAll grammar entries) ∧
      ∀ entry ∈ entries, entry.2.production.isEmptyLiteral = false →
        (state.takeAll grammar entries).Has entry.1 (Key.ofRule entry.2) ∧
        (state.takeAll grammar entries).Omits grammar entry.1 entry.2 := by
  induction entries generalizing state with
  | nil => exact ⟨.refl, by simp⟩
  | cons first rest ih =>
      obtain ⟨own, others⟩ := List.forall_mem_cons.1 given
      obtain ⟨taking, offered⟩ := take_spec state own
      obtain ⟨steps, all⟩ := ih (state.take grammar.recipes first.1 first.2) others
      refine ⟨taking.trans steps, List.forall_mem_cons.2 ⟨fun solid => ?_, all⟩⟩
      obtain ⟨has, omits⟩ := offered solid
      exact ⟨steps.has has, omits.mono steps⟩

theorem collect_steps : Steps grammar ⟨{}, grammar.unaryEdges⟩ (collect grammar) :=
  (takeAll_spec _ fun _ => Grammar.mem_allRules.1).1

/-- Every rule but those on the empty literal is represented in the end, and so is every omission
that is not refused. -/
theorem collect_has (member : rule ∈ grammar.rulesOf symbol)
    (solid : rule.production.isEmptyLiteral = false) :
    (collect grammar).Has symbol (Key.ofRule rule) ∧
      (collect grammar).Omits grammar symbol rule :=
  (takeAll_spec ⟨{}, grammar.unaryEdges⟩ fun _ => Grammar.mem_allRules.1).2 _
    (Grammar.mem_allRules.2 member) solid

theorem collect_origin (member : rule ∈ (collect grammar).rulesOf symbol) :
    Origin grammar symbol rule := by
  have all : ∀ {state}, Steps grammar ⟨{}, grammar.unaryEdges⟩ state →
      ∀ symbol, ∀ rule ∈ state.rulesOf symbol, Origin grammar symbol rule := by
    intro state steps
    induction steps with
    | refl => simp [State.rulesOf, RuleMap.rulesOf]
    | tail _ step ih => exact step.origin ih
  exact all collect_steps symbol rule member

theorem Origin.isEmptyLiteral_eq_false (origin : Origin grammar symbol rule) :
    rule.production.isEmptyLiteral = false := by
  cases origin with
  | given _ solid => exact solid
  | omission | swap => rfl

theorem Origin.slot_known (origin : Origin grammar symbol rule) {slot : Slot}
    (member : slot ∈ rule.slots) : ∃ base ∈ grammar.rulesOf symbol, slot ∈ base.slots := by
  cases origin with
  | given own => exact ⟨rule, own, member⟩
  | omission own _ leaves =>
      rw [slots_omitting, List.mem_singleton] at member
      exact ⟨_, own, member ▸ leaves.kept_mem⟩
  | swap own slots =>
      refine ⟨_, own, slots ▸ ?_⟩
      rw [slots_swapping] at member
      exact List.mem_reverse.1 member

theorem Origin.given_of_literal (origin : Origin grammar symbol rule) {text : String}
    (literal : rule.production = .literal text) : rule ∈ grammar.rulesOf symbol := by
  cases origin with
  | given own => exact own
  | omission | swap => cases literal

/-- Where names of symbols are not literals as well, the key tells productions apart. -/
theorem sameAs_of_key (apart : grammar.SpellsApart) {other : Rule κ}
    (origin : Origin grammar symbol rule) (also : Origin grammar symbol other)
    (same : Key.ofRule rule = Key.ofRule other) :
    rule.production.sameAs other.production = true := by
  have spelled := congrArg Key.production same
  -- Edits only make rules on symbols, so one on a literal is given, and its key spells no symbol.
  have differ : ∀ {first second : Rule κ} {text slots}, Origin grammar symbol first →
      Origin grammar symbol second → first.production = .literal text →
      second.production = .symbols slots → [text] ≠ slots.map Slot.symbol := by
    intro first second text slots firstOrigin secondOrigin literal symbols equal
    obtain ⟨slot, rfl, spelling⟩ := List.map_eq_singleton_iff.1 equal.symm
    have member : slot ∈ second.slots := by simp [Rule.slots, Production.slots, symbols]
    obtain ⟨base, own, inside⟩ := secondOrigin.slot_known member
    exact apart symbol first (firstOrigin.given_of_literal literal) text literal base own slot
      inside spelling
  unfold Key.ofRule at spelled
  cases production : rule.production with
  | literal text =>
      cases productionAlso : other.production with
      | literal otherText => simpa [production, productionAlso, Production.sameAs] using spelled
      | symbols slots =>
          simp only [production, productionAlso] at spelled
          exact absurd spelled (differ origin also production productionAlso)
  | symbols slots =>
      cases productionAlso : other.production with
      | literal otherText =>
          simp only [production, productionAlso] at spelled
          exact absurd spelled.symm (differ also origin productionAlso production)
      | symbols others => simpa [production, productionAlso, Production.sameAs] using spelled

end Edits

namespace Grammar

variable [Cost κ] {grammar edited : Grammar κ} {symbol : String} {rule : Rule κ}

theorem rulesOf_withEdits (derived : grammar.withEdits = .ok edited) :
    edited.rulesOf symbol = (RuleMap.prune (Edits.collect grammar).rules).rulesOf symbol := by
  simp only [withEdits] at derived
  split at derived
  · cases derived
  · cases derived
    rfl

theorem origin_of_withEdits (derived : grammar.withEdits = .ok edited)
    (member : rule ∈ edited.rulesOf symbol) : Edits.Origin grammar symbol rule := by
  rw [rulesOf_withEdits derived] at member
  exact Edits.collect_origin (RuleMap.mem_of_mem_prune member)

end Grammar

end QueryGrammar
