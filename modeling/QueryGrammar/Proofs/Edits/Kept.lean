import QueryGrammar.Proofs.Amounts
import QueryGrammar.Proofs.Edits.Offers

namespace QueryGrammar

/-! Which rules are offered, and what becomes of each.

Main statement: the rules collected on a symbol are what comes of offering it rule after rule, and
for each of these, one with its key that costs no more is there in the end.
-/

open Relation

variable {κ : Type}

namespace Edits

/-- Offers rules one after the other. -/
def offerAll [Cost κ] (offers rules : List (Rule κ)) : List (Rule κ) :=
  offers.foldl (fun rules rule => (offer rule rules).1) rules

theorem offerAll_append [Cost κ] (first second rules : List (Rule κ)) :
    offerAll (first ++ second) rules = offerAll second (offerAll first rules) :=
  List.foldl_append

/-! The rules that are offered. -/

section

variable [Cost κ]

namespace State

/-- The rule that leaves a symbol out is offered unless it is refused. -/
def omissions (recipes : Recipes κ) (symbol : String) (base : Rule κ) (index : Nat)
    (kept omitted : Slot) (state : State κ) : List (Rule κ) :=
  match recipes.get? omitted.symbol with
  | none => []
  | some recipe =>
      if kept.symbol == symbol || state.unary.reaches kept.symbol symbol then []
      else [omitting base index kept omitted recipe]

/-- The second omission is offered, or refused, after the first one has been taken up. -/
def edits (recipes : Recipes κ) (symbol : String) (base : Rule κ) (first second : Slot)
    (state : State κ) : List (Rule κ) :=
  (if base.noInsert then []
    else state.omissions recipes symbol base 1 first second ++
      (state.offerOmission recipes symbol base 1 first second).omissions recipes symbol base 0
        second first) ++
    (base.transpositionCost.map (swapping base first second)).toList

/-- What is offered to a symbol when one of its rules is taken up. -/
def offers (recipes : Recipes κ) (state : State κ) (symbol : String) (rule : Rule κ) :
    List (Rule κ) :=
  if rule.production.isEmptyLiteral then []
  else rule :: match rule.slots with
    | [first, second] => (state.offer symbol rule).1.edits recipes symbol rule first second
    | _ => []

def offersAll (grammar : Grammar κ) (state : State κ) :
    List (String × Rule κ) → List (String × Rule κ)
  | [] => []
  | (symbol, rule) :: rest =>
      (state.offers grammar.recipes symbol rule).map (fun offered => (symbol, offered)) ++
        (state.take grammar.recipes symbol rule).offersAll grammar rest

end State

/-- Every rule that is offered, given or derived, with its symbol and in order. -/
def offered (grammar : Grammar κ) : List (String × Rule κ) :=
  State.offersAll grammar ⟨{}, grammar.unaryEdges⟩ grammar.allRules

/-- Those of some rules that are on a symbol. -/
def rulesOn (symbol : String) (entries : List (String × Rule κ)) : List (Rule κ) :=
  (entries.filter fun entry => entry.1 == symbol).map Prod.snd

end

section

variable [Cost κ] {grammar : Grammar κ} {before middle after state : State κ}
  {symbol other : String} {rule base : Rule κ} {first second kept omitted : Slot} {index : Nat}
  {offers others : List (Rule κ)} {entries : List (String × Rule κ)}

omit [Cost κ] in
theorem mem_rulesOn : rule ∈ rulesOn symbol entries ↔ (symbol, rule) ∈ entries := by
  simp [rulesOn]

omit [Cost κ] in
theorem rulesOn_append (symbol : String) (entries others : List (String × Rule κ)) :
    rulesOn symbol (entries ++ others) = rulesOn symbol entries ++ rulesOn symbol others := by
  simp [rulesOn]

omit [Cost κ] in
theorem rulesOn_map (symbol place : String) (rules : List (Rule κ)) :
    rulesOn symbol (rules.map fun rule => (place, rule)) =
      if place = symbol then rules else [] := by
  by_cases here : place = symbol <;> simp [rulesOn, List.filter_map, Function.comp_def, here]

namespace State

/-- Rules are offered to a symbol one after the other; other symbols are left alone. -/
structure Grows (before after : State κ) (symbol : String) (offers : List (Rule κ)) : Prop where
  own : after.rulesOf symbol = offerAll offers (before.rulesOf symbol)
  others : ∀ other, other ≠ symbol → after.rulesOf other = before.rulesOf other

theorem Grows.refl (state : State κ) (symbol : String) : state.Grows state symbol [] :=
  ⟨rfl, fun _ _ => rfl⟩

theorem Grows.trans (first : before.Grows middle symbol offers)
    (second : middle.Grows after symbol others) : before.Grows after symbol (offers ++ others) := by
  refine ⟨?_, fun other apart => ?_⟩
  · rw [second.own, first.own, offerAll_append]
  · rw [second.others other apart, first.others other apart]

theorem grows_offer (state : State κ) (symbol : String) (rule : Rule κ) :
    state.Grows (state.offer symbol rule).1 symbol [rule] := by
  refine ⟨?_, fun other apart => by rw [rulesOf_offer, if_neg apart]⟩
  rw [rulesOf_offer, if_pos rfl]
  rfl

theorem grows_offerOmission (recipes : Recipes κ) (state : State κ) (symbol : String)
    (base : Rule κ) (index : Nat) (kept omitted : Slot) :
    state.Grows (state.offerOmission recipes symbol base index kept omitted) symbol
      (state.omissions recipes symbol base index kept omitted) := by
  unfold offerOmission omissions
  cases recipes.get? omitted.symbol with
  | none => exact .refl state symbol
  | some recipe =>
      simp only []
      split
      · exact .refl state symbol
      · have grows := state.grows_offer symbol (omitting base index kept omitted recipe)
        split
        · exact ⟨grows.own, grows.others⟩
        · exact grows

theorem grows_offerEdits (recipes : Recipes κ) (state : State κ) (symbol : String)
    (base : Rule κ) (first second : Slot) :
    state.Grows (state.offerEdits recipes symbol base first second) symbol
      (state.edits recipes symbol base first second) := by
  have omissions : state.Grows
      (if base.noInsert then state
        else (state.offerOmission recipes symbol base 1 first second).offerOmission recipes symbol
          base 0 second first) symbol
      (if base.noInsert then []
        else state.omissions recipes symbol base 1 first second ++
          (state.offerOmission recipes symbol base 1 first second).omissions recipes symbol base 0
            second first) := by
    split
    · exact .refl state symbol
    · exact (grows_offerOmission ..).trans (grows_offerOmission ..)
  unfold offerEdits edits
  cases base.transpositionCost with
  | none => simpa using omissions
  | some penalty => exact omissions.trans (grows_offer _ symbol _)

theorem grows_take (recipes : Recipes κ) (state : State κ) (symbol : String) (rule : Rule κ) :
    state.Grows (state.take recipes symbol rule) symbol
      (state.offers recipes symbol rule) := by
  unfold take offers
  split
  · refine ⟨?_, fun other apart => ?_⟩
    · simp [rulesOf, RuleMap.rulesOf, Dictionary.get?_alter, offerAll]
    · simp [rulesOf, RuleMap.rulesOf, Dictionary.get?_alter, apart]
  · have given := grows_offer state symbol rule
    rcases rule.slots with - | ⟨first, - | ⟨second, - | ⟨third, rest⟩⟩⟩
    · exact given
    · exact given
    · exact given.trans (grows_offerEdits ..)
    · exact given

end State

theorem rulesOf_takeAll (entries : List (String × Rule κ)) (state : State κ) (symbol : String) :
    (state.takeAll grammar entries).rulesOf symbol =
      offerAll (rulesOn symbol (state.offersAll grammar entries)) (state.rulesOf symbol) := by
  induction entries generalizing state with
  | nil => rfl
  | cons first rest ih =>
      obtain ⟨place, rule⟩ := first
      have grows := State.grows_take grammar.recipes state place rule
      have later : (state.takeAll grammar ((place, rule) :: rest)) =
        (state.take grammar.recipes place rule).takeAll grammar rest := rfl
      rw [later, ih, State.offersAll, rulesOn_append, offerAll_append]
      by_cases here : symbol = place
      · subst here
        rw [grows.own, rulesOn_map, if_pos rfl]
      · rw [grows.others symbol here, rulesOn_map, if_neg (Ne.symm here)]
        rfl

/-- The rules collected on a symbol are what comes of all that is offered to it. -/
theorem rulesOf_collect (grammar : Grammar κ) (symbol : String) :
    (collect grammar).rulesOf symbol = offerAll (rulesOn symbol (offered grammar)) [] :=
  rulesOf_takeAll grammar.allRules ⟨{}, grammar.unaryEdges⟩ symbol

/-! Where offers come from. -/

theorem State.origin_of_omissions (state : State κ) (member : base ∈ grammar.rulesOf symbol)
    (allowed : base.noInsert = false) (leaves : Leaves base index kept omitted) :
    ∀ rule ∈ state.omissions grammar.recipes symbol base index kept omitted,
      Origin grammar symbol rule := by
  intro rule listed
  unfold omissions at listed
  cases found : grammar.recipes.get? omitted.symbol with
  | none => simp [found] at listed
  | some recipe =>
      simp only [found] at listed
      split at listed
      · cases listed
      · rw [List.mem_singleton.1 listed]
        exact .omission member allowed leaves found

theorem State.origin_of_edits (state : State κ) (member : base ∈ grammar.rulesOf symbol)
    (slots : base.slots = [first, second]) :
    ∀ rule ∈ state.edits grammar.recipes symbol base first second,
      Origin grammar symbol rule := by
  intro rule listed
  rcases List.mem_append.1 listed with omission | swap
  · cases allowed : base.noInsert with
    | true => simp [allowed] at omission
    | false =>
        simp only [allowed, Bool.false_eq_true, if_false] at omission
        rcases List.mem_append.1 omission with left | right
        · exact origin_of_omissions _ member allowed (.first slots) rule left
        · exact origin_of_omissions _ member allowed (.second slots) rule right
  · obtain ⟨penalty, priced, rfl⟩ := Option.map_eq_some_iff.1 (Option.mem_toList.1 swap)
    exact .swap member slots priced

theorem State.origin_of_offers (state : State κ) (member : base ∈ grammar.rulesOf symbol) :
    ∀ rule ∈ state.offers grammar.recipes symbol base, Origin grammar symbol rule := by
  intro rule listed
  unfold offers at listed
  split at listed
  · cases listed
  · rename_i solid
    rcases List.mem_cons.1 listed with rfl | edit
    · exact .given member (Bool.not_eq_true _ ▸ solid)
    · split at edit
      · rename_i slots
        exact origin_of_edits _ member slots rule edit
      · cases edit

theorem State.origin_of_offersAll (state : State κ)
    (given : ∀ entry ∈ entries, entry.2 ∈ grammar.rulesOf entry.1) :
    ∀ entry ∈ state.offersAll grammar entries, Origin grammar entry.1 entry.2 := by
  induction entries generalizing state with
  | nil => simp [offersAll]
  | cons first rest ih =>
      obtain ⟨own, others⟩ := List.forall_mem_cons.1 given
      intro entry listed
      rcases List.mem_append.1 listed with now | later
      · obtain ⟨rule, offered, rfl⟩ := List.mem_map.1 now
        exact state.origin_of_offers own rule offered
      · exact ih _ others entry later

theorem origin_of_offered (listed : (symbol, rule) ∈ offered grammar) :
    Origin grammar symbol rule :=
  State.origin_of_offersAll _ (fun _ => Grammar.mem_allRules.1) _ listed

/-! Nothing that may be derived is passed over. -/

theorem State.mem_omissions {state : State κ} {recipe : Recipe κ}
    (found : grammar.recipes.get? omitted.symbol = some recipe) (apart : kept.symbol ≠ symbol)
    (away : state.unary.reaches kept.symbol symbol = false) :
    omitting base index kept omitted recipe ∈
      state.omissions grammar.recipes symbol base index kept omitted := by
  simp [omissions, found, apart, away]

theorem State.exists_offers (state : State κ)
    (given : ∀ entry ∈ entries, entry.2 ∈ grammar.rulesOf entry.1)
    (member : (symbol, base) ∈ entries) :
    ∃ before : State κ,
      Steps grammar (before.take grammar.recipes symbol base) (state.takeAll grammar entries) ∧
        ∀ rule ∈ before.offers grammar.recipes symbol base,
          (symbol, rule) ∈ state.offersAll grammar entries := by
  induction entries generalizing state with
  | nil => cases member
  | cons first rest ih =>
      obtain ⟨own, others⟩ := List.forall_mem_cons.1 given
      rcases List.mem_cons.1 member with rfl | later
      · refine ⟨state, (takeAll_spec _ others).1, fun rule listed => ?_⟩
        exact List.mem_append_left _ (List.mem_map_of_mem listed)
      · obtain ⟨before, steps, listed⟩ := ih (state.take grammar.recipes first.1 first.2) others later
        exact ⟨before, steps, fun rule offered => List.mem_append_right _ (listed rule offered)⟩

/-- What the guard lets through in the end, it let through when it was asked. -/
theorem State.mem_offers_of_omission (state : State κ) {recipe : Recipe κ}
    (member : base ∈ grammar.rulesOf symbol) (solid : base.production.isEmptyLiteral = false)
    (allowed : base.noInsert = false) (leaves : Leaves base index kept omitted)
    (found : grammar.recipes.get? omitted.symbol = some recipe) (apart : kept.symbol ≠ symbol)
    (away : (state.take grammar.recipes symbol base).unary.reaches kept.symbol symbol = false) :
    omitting base index kept omitted recipe ∈ state.offers grammar.recipes symbol base := by
  obtain ⟨first, second, slots⟩ : ∃ first second, base.slots = [first, second] := by
    cases leaves with
    | first slots => exact ⟨_, _, slots⟩
    | second slots => exact ⟨_, _, slots⟩
  generalize taken : (state.offer symbol base).1 = before
  generalize left : before.offerOmission grammar.recipes symbol base 1 first second = middle
  have one : Step grammar before middle :=
    left ▸ (offerOmission_spec before member allowed (.first slots)).1
  have two := (offerOmission_spec middle member allowed (.second slots)).1
  have last : (state.take grammar.recipes symbol base).unary =
      (middle.offerOmission grammar.recipes symbol base 0 second first).unary := by
    simp only [take, solid, Bool.false_eq_true, if_false, slots, offerEdits, allowed, taken, left]
    cases base.transpositionCost <;> rfl
  rw [last] at away
  have listed : omitting base index kept omitted recipe ∈
      before.omissions grammar.recipes symbol base 1 first second ++
        middle.omissions grammar.recipes symbol base 0 second first := by
    cases leaves with
    | first same =>
        cases slots.symm.trans same
        exact List.mem_append_left _ (mem_omissions found apart
          (Steps.reaches_eq_false ((ReflTransGen.single one).tail two) away))
    | second same =>
        cases slots.symm.trans same
        exact List.mem_append_right _ (mem_omissions found apart
          (Steps.reaches_eq_false (.single two) away))
  simp only [offers, solid, Bool.false_eq_true, if_false, slots, edits, allowed, taken, left]
  exact List.mem_cons_of_mem _ (List.mem_append_left _ listed)

/-- Every rule but those on the empty literal is offered, and so is every swap, and every omission
that does not lead a symbol back to itself. -/
theorem offered_complete (member : base ∈ grammar.rulesOf symbol)
    (solid : base.production.isEmptyLiteral = false) :
    (symbol, base) ∈ offered grammar ∧
      (∀ first second penalty, base.slots = [first, second] →
        base.transpositionCost = some penalty →
        (symbol, swapping base first second penalty) ∈ offered grammar) ∧
      ∀ index kept omitted recipe, base.noInsert = false → Leaves base index kept omitted →
        grammar.recipes.get? omitted.symbol = some recipe → kept.symbol ≠ symbol →
        (collect grammar).unary.reaches kept.symbol symbol = false →
        (symbol, omitting base index kept omitted recipe) ∈ offered grammar := by
  have given : ∀ entry ∈ grammar.allRules, entry.2 ∈ grammar.rulesOf entry.1 :=
    fun _ => Grammar.mem_allRules.1
  obtain ⟨before, steps, listed⟩ :=
    State.exists_offers ⟨{}, grammar.unaryEdges⟩ given (Grammar.mem_allRules.2 member)
  refine ⟨listed base ?_, fun first second penalty slots priced => listed _ ?_,
    fun index kept omitted recipe allowed leaves found apart away => listed _ ?_⟩
  · simp [State.offers, solid]
  · simp [State.offers, solid, slots, State.edits, priced]
  · exact before.mem_offers_of_omission member solid allowed leaves found apart
      (steps.reaches_eq_false away)

end

/-! What is left of offers. -/

section

variable {rules before after offers : List (Rule Amount)} {rule old : Rule Amount} {isNew : Bool}

/-- A rule with the key of another one is there, and costs no more. -/
def Covers (rules : List (Rule Amount)) (rule : Rule Amount) : Prop :=
  ∃ kept ∈ rules, Key.ofRule kept = Key.ofRule rule ∧ Cost.less rule.cost kept.cost = false

theorem covers_of_offered (offered : Offered before rule after isNew) : Covers after rule := by
  rcases offered.own with own | covered
  · exact ⟨rule, own, rfl, Amount.less_irrefl rule.cost⟩
  · exact covered

theorem Covers.offered (covers : Covers before old) (offered : Offered before rule after isNew) :
    Covers after old := by
  obtain ⟨kept, member, key, dear⟩ := covers
  rcases offered.keeps kept member with inside | ⟨same, inside, cheaper⟩
  · exact ⟨kept, inside, key, dear⟩
  · refine ⟨rule, inside, same.trans key, ?_⟩
    rw [← Bool.not_eq_true] at dear ⊢
    exact fun less => dear (Amount.less_trans less cheaper)

theorem Covers.offerAll (covers : Covers rules rule) (offers : List (Rule Amount)) :
    Covers (offerAll offers rules) rule := by
  induction offers generalizing rules with
  | nil => exact covers
  | cons first rest ih => exact ih (covers.offered (offer_spec first rules))

theorem covers_offerAll (member : rule ∈ offers) (rules : List (Rule Amount)) :
    Covers (Edits.offerAll offers rules) rule := by
  induction offers generalizing rules with
  | nil => cases member
  | cons first rest ih =>
      rcases List.mem_cons.1 member with rfl | later
      · exact (covers_of_offered (offer_spec rule rules)).offerAll rest
      · exact ih later _

/-- What is offered is there in the end, or a rule with its key that costs no more. -/
theorem collect_covers {grammar : Grammar Amount} {symbol : String}
    (listed : (symbol, rule) ∈ offered grammar) : Covers ((collect grammar).rulesOf symbol) rule := by
  rw [rulesOf_collect]
  exact covers_offerAll (mem_rulesOn.2 listed) []

end

end Edits

end QueryGrammar
