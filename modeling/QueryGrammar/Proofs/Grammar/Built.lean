import QueryGrammar.Grammar.Entry
import QueryGrammar.Proofs.Grammar.Rules
import QueryGrammar.Proofs.Grammar.Steps
import QueryGrammar.Proofs.Meaning.Completable

namespace QueryGrammar

/-! What steps on builders preserve.

Main statement: adding rules whose meanings are made of declared concepts that take their arguments
keeps a builder to such meanings, whether or not a step fails halfway.
-/

variable {κ : Type}

namespace Build

variable {holds : Builder κ → Prop} {builder : Builder κ}

/-- A step leads from a builder to builders with one property, and to values and builders with
another one where it succeeds. -/
structure Leads (holds : Builder κ → Prop) (gives : α → Builder κ → Prop) (builder : Builder κ)
    (step : Build κ α) : Prop where
  holds : holds (step builder).2
  gives : ∀ value, (step builder).1 = .ok value → gives value (step builder).2

variable {gives : α → Builder κ → Prop} {later : β → Builder κ → Prop}

theorem Leads.pure {value : α} (kept : holds builder) (given : gives value builder) :
    Leads holds gives builder (pure value) :=
  ⟨kept, fun _ same => Except.ok.inj same ▸ given⟩

theorem Leads.bind {first : Build κ α} {next : α → Build κ β} (leads : Leads holds gives builder first)
    (go : ∀ value after, holds after → gives value after → Leads holds later after (next value)) :
    Leads holds later builder (first >>= next) := by
  have split := bind_eq first next builder
  obtain ⟨kept, given⟩ := leads
  rcases ran : first builder with ⟨outcome, after⟩
  rw [ran] at kept given split
  cases outcome with
  | error cause => exact ⟨split ▸ kept, fun value same => by rw [split] at same; cases same⟩
  | ok value =>
      obtain ⟨last, result⟩ := go value after kept (given value rfl)
      exact ⟨split ▸ last, split ▸ result⟩

theorem Leads.imp {step : Build κ α} {others : α → Builder κ → Prop}
    (leads : Leads holds gives builder step)
    (weaker : ∀ value after, gives value after → others value after) :
    Leads holds others builder step :=
  ⟨leads.holds, fun value same => weaker value _ (leads.gives value same)⟩

theorem Leads.of_ok {step : Build κ α} {value : α} {after : Builder κ}
    (ran : step builder = (.ok value, after)) (kept : holds after) (given : gives value after) :
    Leads holds gives builder step :=
  ⟨by rwa [ran], fun result same => by
    rw [ran] at same ⊢
    cases same
    exact given⟩

theorem Leads.of_error {step : Build κ α} {cause : GrammarError} {after : Builder κ}
    (ran : step builder = (.error cause, after)) (kept : holds after) :
    Leads holds gives builder step :=
  ⟨by rwa [ran], fun result same => by rw [ran] at same; cases same⟩

theorem Leads.throw {cause : GrammarError} (kept : holds builder) :
    Leads holds gives builder (throw cause : Build κ α) :=
  ⟨kept, fun _ failed => nomatch failed⟩

theorem Leads.attempt {step : Builder κ → Except GrammarError (Builder κ)}
    {gives : Unit → Builder κ → Prop} (kept : holds builder)
    (changes : Ensures (fun changed => holds changed ∧ gives () changed) (step builder)) :
    Leads holds gives builder (attempt step) := by
  unfold Build.attempt
  cases stepped : step builder with
  | error cause => exact ⟨by simpa [stepped] using kept, fun value same => by simp [stepped] at same⟩
  | ok changed =>
      obtain ⟨after, result⟩ := changes changed stepped
      exact ⟨by simpa [stepped] using after, fun value same => by simpa [stepped] using result⟩

theorem Leads.consult {look : Builder κ → Except GrammarError α} {good : α → Prop}
    (kept : holds builder) (sees : Ensures good (look builder)) :
    Leads holds (fun value after => good value ∧ after = builder) builder (consult look) :=
  ⟨kept, fun value same => ⟨sees value same, rfl⟩⟩

end Build

/-! Meanings made of declared concepts. -/

/-- A meaning of concepts that are declared, whose functions take the arguments that they are
given. -/
structure Meaning.Declared (concepts : Dictionary (Concept κ)) (meaning : Meaning κ) : Prop where
  checked : meaning.Checked
  known : ∀ part ∈ meaning.parts, concepts.get? part.name = some part.concept

def Rule.Declared (concepts : Dictionary (Concept κ)) (rule : Rule κ) : Prop :=
  ∀ meaning ∈ rule.meaning, meaning.Declared concepts

/-- Concepts are found under their names, and rules mean what is made of them. -/
structure Builder.Declared (builder : Builder κ) : Prop where
  named : ∀ name concept, builder.concepts.get? name = some concept → concept.name = name
  rules : ∀ symbol rules, builder.rules.get? symbol = some rules →
    ∀ rule ∈ rules, rule.Declared builder.concepts

theorem Builder.Declared.of_mem_rulesOf {builder : Builder κ} (declared : builder.Declared)
    {symbol : String} : ∀ rule ∈ builder.rulesOf symbol, rule.Declared builder.concepts := by
  unfold Builder.rulesOf
  cases found : builder.rules.get? symbol with
  | none => exact List.forall_mem_nil _
  | some rules => exact declared.rules symbol rules found

section

variable {concepts : Dictionary (Concept κ)} {concept : Concept κ} {meaning : Meaning κ}
  {rule : Rule κ}

theorem Meaning.Declared.insert (declared : meaning.Declared concepts)
    (fresh : concepts.get? concept.name = none) :
    meaning.Declared (concepts.insert concept.name concept) where
  checked := declared.checked
  known part inside := by
    have known := declared.known part inside
    rw [Dictionary.get?_insert, if_neg, known]
    intro same
    rw [same, fresh] at known
    cases known

theorem Rule.Declared.of_none (none : rule.meaning = none) : rule.Declared concepts := by
  intro meaning member
  rw [none] at member
  cases member

end

namespace Build

variable [Cost κ] {builder : Builder κ} {symbol : String} {rule : Rule κ} {rules : List (Rule κ)}
  {concept : Concept κ}

/-- A step that keeps a builder to declared concepts, and declares none itself. -/
abbrev Adds (builder : Builder κ) (step : Build κ α) : Prop :=
  Leads Builder.Declared (fun _ after => after.concepts = builder.concepts) builder step

omit [Cost κ] in
theorem Adds.bind {first : Build κ α} {next : α → Build κ β} (adds : Adds builder first)
    (go : ∀ value after, after.Declared → after.concepts = builder.concepts →
      Adds after (next value)) : Adds builder (first >>= next) :=
  Leads.bind adds fun value after kept same =>
    (go value after kept same).imp fun _ _ again => again.trans same

omit [Cost κ] in
theorem setStart_adds (declared : builder.Declared) : Adds builder (setStart symbol) :=
  .attempt declared (.ok ⟨⟨declared.named, declared.rules⟩, rfl⟩)

omit [Cost κ] in
theorem newSymbol_adds (declared : builder.Declared) : Adds builder (newSymbol symbol) := by
  refine .attempt declared ?_
  unfold Builder.newSymbol?
  split
  · exact fun _ failed => nomatch failed
  · refine .ok ⟨⟨declared.named, fun other rules found => ?_⟩, rfl⟩
    rw [Dictionary.get?_insert] at found
    split at found
    · cases found
      exact List.forall_mem_nil _
    · exact declared.rules other rules found

omit [Cost κ] in
theorem define_leads (declared : builder.Declared) :
    Leads Builder.Declared (fun _ _ => True) builder (define concept) := by
  refine .attempt declared ?_
  unfold Builder.define?
  split
  · exact fun _ failed => nomatch failed
  · rename_i absent
    have fresh : builder.concepts.get? concept.name = none := by
      simpa [Dictionary.contains] using absent
    refine .ok ⟨⟨fun name other found => ?_, fun symbol rules found rule member meaning own => ?_⟩,
      trivial⟩
    · rw [Dictionary.get?_insert] at found
      split at found
      · cases found
        exact Eq.symm ‹_›
      · exact declared.named name other found
    · exact (declared.rules symbol rules found rule member meaning own).insert fresh

theorem addRule_adds (declared : builder.Declared) (own : rule.Declared builder.concepts) :
    Adds builder (addRule symbol rule) := by
  by_cases accepts : builder.Accepts symbol rule
  · refine .of_ok (addRule_ok accepts) ⟨declared.named, fun other rules found => ?_⟩ rfl
    have stored : rules = ((builder.opened symbol).extended symbol rule).rulesOf other := by
      rw [Builder.rulesOf, found, Option.getD_some]
    rw [stored, Builder.rulesOf_extended, Builder.rulesOf_opened, Builder.rulesOf_opened]
    split
    · exact List.forall_mem_append.2 ⟨declared.of_mem_rulesOf, List.forall_mem_singleton.2 own⟩
    · exact declared.of_mem_rulesOf
  · obtain ⟨cause, refused⟩ := addRule_error accepts
    exact .of_error refused declared

theorem addRules_adds (declared : builder.Declared)
    (own : ∀ rule ∈ rules, rule.Declared builder.concepts) :
    Adds builder (addRules symbol rules) := by
  induction rules generalizing builder with
  | nil => exact .pure declared rfl
  | cons first rest ih =>
      obtain ⟨firstOwn, others⟩ := List.forall_mem_cons.1 own
      exact (addRule_adds declared firstOwn).bind fun _ after kept same => ih kept (same ▸ others)

omit [Cost κ] in
theorem refuse_adds {flaw : Option RuleFlaw} (declared : builder.Declared) :
    Adds builder (refuse symbol flaw) := by
  cases flaw with
  | none => exact .pure declared rfl
  | some flaw => exact .throw declared

theorem addOptional_adds (declared : builder.Declared) : Adds builder (addOptional symbol) := by
  refine (newSymbol_adds declared).bind fun _ after kept same => ?_
  have meaningless : ∀ rule ∈ [{ Rule.symbols [symbol] with noInsert := true },
      Rule.literal emptyLiteral], rule.Declared after.concepts := by
    simp [Rule.Declared, Rule.symbols, Rule.literal]
  exact (addRules_adds kept meaningless).bind fun _ last kept _ => .pure kept rfl

end Build

/-! The rules of entries. -/

section

variable [Cost κ] {meaning : Option (Meaning κ)} {rules : List (Rule κ)} {cost : Option κ}

omit [Cost κ] in
theorem meaning_of_insertFirst (same : ∀ rule ∈ rules, rule.meaning = meaning) :
    ∀ rule ∈ insertFirst cost rules, rule.meaning = meaning := by
  cases rules with
  | nil => exact same
  | cons first rest =>
      obtain ⟨own, others⟩ := List.forall_mem_cons.1 same
      exact List.forall_mem_cons.2 ⟨own, others⟩

theorem WordEntry.meaning_of_mem_rules (entry : WordEntry κ) :
    ∀ rule ∈ entry.rules, rule.meaning = none := by
  refine List.forall_mem_append.2 ⟨List.forall_mem_append.2 ⟨?_, ?_⟩, ?_⟩
  · split <;> simp [Rule.literal]
  · exact meaning_of_insertFirst (List.forall_mem_map.2 fun _ _ => rfl)
  · exact List.forall_mem_map.2 fun _ _ => rfl

theorem VerbEntry.meaning_of_mem_rules (entry : VerbEntry κ) :
    ∀ rule ∈ entry.rules, rule.meaning = none := by
  refine List.forall_mem_append.2 ⟨List.forall_mem_append.2 ⟨?_, ?_⟩, ?_⟩
  · exact meaning_of_insertFirst (List.forall_mem_map.2 fun _ _ => rfl)
  · exact List.forall_mem_map.2 fun _ _ => rfl
  · exact List.forall_mem_map.2 fun _ _ => rfl

theorem PronounEntry.meaning_of_mem_rules (entry : PronounEntry κ) :
    ∀ rule ∈ entry.rules, rule.meaning = entry.meaning :=
  List.forall_mem_append.2 ⟨meaning_of_insertFirst (List.forall_mem_map.2 fun _ _ => rfl),
    List.forall_mem_map.2 fun _ _ => rfl⟩

theorem meaning_of_mem_stopWordRules (words : List (Substitution κ)) :
    ∀ rule ∈ stopWordRules words, rule.meaning = none :=
  List.forall_mem_cons.2 ⟨rfl, List.forall_mem_map.2 fun _ _ => rfl⟩

end

namespace Build

variable [Cost κ] {builder : Builder κ} {symbol : String}

/-- Rules without a meaning can always be added. -/
theorem addMeaningless_adds {rules : List (Rule κ)} (declared : builder.Declared)
    (meaningless : ∀ rule ∈ rules, rule.meaning = none) : Adds builder (addRules symbol rules) :=
  addRules_adds declared fun rule member => .of_none (meaningless rule member)

theorem addWord_adds {entry : WordEntry κ} (declared : builder.Declared) :
    Adds builder (addWord symbol entry) :=
  (refuse_adds declared).bind fun _ _ kept _ =>
    addMeaningless_adds kept entry.meaning_of_mem_rules

theorem addVerb_adds {entry : VerbEntry κ} (declared : builder.Declared) :
    Adds builder (addVerb symbol entry) :=
  (refuse_adds declared).bind fun _ _ kept _ =>
    addMeaningless_adds kept entry.meaning_of_mem_rules

theorem addStopWords_adds {words : List (Substitution κ)} (declared : builder.Declared) :
    Adds builder (addStopWords symbol words) :=
  addMeaningless_adds declared (meaning_of_mem_stopWordRules words)

theorem addPronoun_adds {entry : PronounEntry κ} (declared : builder.Declared)
    (own : ∀ meaning ∈ entry.meaning, meaning.Declared builder.concepts) :
    Adds builder (addPronoun symbol entry) :=
  addRules_adds declared fun rule member meaning given =>
    own meaning (entry.meaning_of_mem_rules rule member ▸ given)

theorem addPlaceholder_adds {entry : PlaceholderEntry κ} (declared : builder.Declared)
    (own : ∀ meaning ∈ entry.meaning, meaning.Declared builder.concepts) :
    Adds builder (addPlaceholder symbol entry) :=
  addRule_adds declared own

end Build

namespace Builder

variable [Cost κ] {builder : Builder κ} {grammar : Grammar κ}

omit [Cost κ] in
theorem declared_empty : (empty : Builder κ).Declared where
  named name concept found := by simp [empty] at found
  rules symbol rules found := by simp [empty] at found

/-- A grammar has the rules and the concepts of its builder. -/
theorem finish_ensures (builder : Builder κ) : Ensures (fun grammar : Grammar κ =>
    grammar.rules = builder.rules ∧ grammar.concepts = builder.concepts) builder.finish := by
  unfold finish
  split
  · exact fun _ failed => nomatch failed
  · exact Ensures.after fun _ => .ok ⟨rfl, rfl⟩

end Builder

end QueryGrammar
