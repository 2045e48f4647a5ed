import QueryGrammar.Grammar.Notation.Statement
import QueryGrammar.Proofs.Grammar.Built

namespace QueryGrammar

/-! Meanings of grammars that are written as text.

Main statement: such a meaning can be completed just if what waits for arguments in it is alone and
waits for something.
-/

namespace Notation

variable {builder : Builder Amount} {concept : Concept Amount} {args : List (Meaning Amount)}
  {meaning : Meaning Amount} {name : String}

theorem concept?_ensures (builder : Builder Amount) (name : String) :
    Ensures (fun concept => builder.concepts.get? name = some concept) (builder.concept? name) := by
  unfold Builder.concept?
  split
  · exact .ok ‹_›
  · exact fun _ failed => nomatch failed

theorem declared_apply {concepts : Dictionary (Concept Amount)}
    (applied : args ≠ [] → (Meaning.apply concept args).Applied)
    (known : concepts.get? concept.name = some concept)
    (inner : ∀ arg ∈ args, arg.Declared concepts) :
    (Meaning.apply concept args).Declared concepts where
  checked := Meaning.checked_apply.2 ⟨applied, fun arg member => (inner arg member).checked⟩
  known part inside := by
    rcases Meaning.mem_parts_apply.1 inside with rfl | ⟨arg, member, within⟩
    · exact known
    · exact (inner arg member).known part within

theorem application?_declared {concepts : Dictionary (Concept Amount)}
    (made : Meaning.application? concept args = some meaning)
    (known : concepts.get? concept.name = some concept)
    (inner : ∀ arg ∈ args, arg.Declared concepts) : meaning.Declared concepts := by
  obtain ⟨arranged, arranging, takes, rfl⟩ := Meaning.application?_eq_some_iff.1 made
  refine declared_apply (fun given => ⟨given, takes, Meaning.coexist_of_arrange? arranging⟩) known
    fun arg member => inner arg ((Meaning.arrange?_perm arranging).mem_iff.1 member)

mutual

/-- Names stand for what is declared, and arguments are checked. -/
theorem resolve_declared (declared : builder.Declared) : (expr : MeaningExpr) →
    Ensures (fun meaning => meaning.Declared builder.concepts) (resolve builder expr)
  | .apply name [] => by
      have looked := concept?_ensures builder name
      rw [resolve]
      split
      · rename_i concept found
        have known := looked concept found
        rw [← declared.named name concept known] at known
        exact .ok (declared_apply (absurd rfl) known (List.forall_mem_nil _))
      · exact fun _ failed => nomatch failed
  | .apply name (first :: rest) => by
      have looked := concept?_ensures builder name
      have resolved := resolveAll_declared declared (first :: rest)
      rw [resolve]
      split
      · exact fun _ failed => nomatch failed
      · rename_i concept found
        have known := looked concept found
        rw [← declared.named name concept known] at known
        split
        · exact fun _ failed => nomatch failed
        · rename_i args given
          split
          · exact .ok (application?_declared ‹_› known (resolved args given))
          · exact fun _ failed => nomatch failed

theorem resolveAll_declared (declared : builder.Declared) : (exprs : List MeaningExpr) →
    Ensures (fun meanings => ∀ meaning ∈ meanings, meaning.Declared builder.concepts)
      (resolveAll builder exprs)
  | [] => by
      rw [resolveAll]
      exact .ok (List.forall_mem_nil _)
  | first :: rest => by
      have own := resolve_declared declared first
      have others := resolveAll_declared declared rest
      rw [resolveAll]
      split
      · exact fun _ failed => nomatch failed
      · rename_i meaning found
        split
        · exact fun _ failed => nomatch failed
        · rename_i meanings given
          exact .ok (List.forall_mem_cons.2 ⟨own meaning found, others meanings given⟩)

end

namespace Taking

/-- What is taken from options has a property. -/
def Yields (holds : α → Prop) (taking : Taking α) : Prop :=
  ∀ options, Ensures (fun taken => holds taken.1) (taking options)

variable {holds : α → Prop} {later : β → Prop} {taking : Taking α} {next : α → Taking β}

theorem Yields.pure {value : α} (own : holds value) : Yields holds (pure value) :=
  fun _ => .ok own

theorem Yields.bind (first : Yields holds taking)
    (go : ∀ value, holds value → Yields later (next value)) : Yields later (taking >>= next) :=
  fun options => (first options).bind fun taken own => go taken.1 own taken.2

theorem Yields.after (go : ∀ value, Yields later (next value)) : Yields later (taking >>= next) :=
  fun _ => Ensures.after fun taken => go taken.1 taken.2

theorem Yields.refuse {error : NotationError} : Yields holds (refuse error) :=
  fun _ _ failed => nomatch failed

theorem meaning?_yields (declared : builder.Declared) :
    Yields (fun meaning => ∀ own ∈ meaning, own.Declared builder.concepts) (meaning? builder) := by
  refine .after fun value => ?_
  split
  · exact .pure (by simp)
  · rename_i expr
    intro options
    have lifted : Ensures (fun taken : Meaning Amount × Options =>
        taken.1.Declared builder.concepts) (StateT.lift (resolve builder expr) options) :=
      (resolve_declared declared expr).bind fun meaning own => .ok own
    exact lifted.bind fun taken own => .ok (by simpa using own)
  · exact .refuse

theorem rule_yields (declared : builder.Declared) (production : Production) :
    Yields (fun rule => rule.Declared builder.concepts) (rule builder production) := by
  refine .after fun cost => .after fun insertionCost => .after fun transpositionCost => ?_
  refine (meaning?_yields declared).bind fun meaning own => ?_
  refine .after fun person => .after fun noInsert => .after fun role => .after fun wording => ?_
  exact .pure own

theorem pronoun_yields (declared : builder.Declared) :
    Yields (fun entry => ∀ meaning ∈ entry.meaning, meaning.Declared builder.concepts)
      (pronoun builder) := by
  refine .after fun nominative => .after fun objective => .after fun substitutions => ?_
  refine .after fun insertionCost => (meaning?_yields declared).bind fun meaning own => ?_
  exact .pure own

theorem placeholder_yields (declared : builder.Declared) :
    Yields (fun entry => ∀ meaning ∈ entry.meaning, meaning.Declared builder.concepts)
      (placeholder builder) := by
  refine .after fun category => (meaning?_yields declared).bind fun meaning own => ?_
  exact .pure own

end Taking

/-! Carrying out statements. -/

open Build

/-- A step that keeps a builder to declared concepts. -/
abbrev Keeps (builder : Builder Amount) (step : Build Amount α) : Prop :=
  Leads Builder.Declared (fun _ _ => True) builder step

theorem carryOut_keeps {holds : α → Prop} {taking : Builder Amount → Taking α}
    {step : α → Build Amount Unit} (declared : builder.Declared)
    (yields : (taking builder).Yields holds)
    (steps : ∀ taken, holds taken → Keeps builder (step taken)) (options : Options)
    (subject : String) : Keeps builder (carryOut options subject taking step) := by
  refine (Leads.consult declared (yields options)).bind fun taken after _ given => ?_
  obtain ⟨own, rfl⟩ := given
  refine (steps taken.1 own).bind fun _ last kept _ => ?_
  exact (Leads.consult kept fun _ _ => trivial).bind fun _ _ kept _ => .pure kept trivial

theorem statement_keeps (declared : builder.Declared) (statement : Statement) :
    Keeps builder statement.carryOut := by
  have adds : ∀ {step : Build Amount Unit}, Adds builder step → Keeps builder step :=
    fun step => step.imp fun _ _ _ => trivial
  have anything : ∀ {α : Type} (taking : Taking α), taking.Yields fun _ => True :=
    fun _ _ _ _ => trivial
  cases statement with
  | rule symbol options parts =>
      rw [Statement.carryOut]
      refine (Leads.consult declared (?_ : Ensures (Rule.Declared builder.concepts) _)).bind ?_
      · refine Ensures.after fun production => ?_
        refine (Taking.rule_yields declared production options).bind fun taken own => ?_
        exact Ensures.after fun _ => .ok own
      · intro rule after kept given
        obtain ⟨own, rfl⟩ := given
        exact adds (addRule_adds declared own)
  | directive directive name options =>
      cases directive <;> rw [Statement.carryOut]
      case start =>
        exact carryOut_keeps declared (anything _) (fun _ _ => adds (setStart_adds declared)) ..
      case function => exact carryOut_keeps declared (anything _) (fun _ _ => define_leads declared) ..
      case argument => exact carryOut_keeps declared (anything _) (fun _ _ => define_leads declared) ..
      case word =>
        exact carryOut_keeps declared (anything _) (fun _ _ => adds (addWord_adds declared)) ..
      case verb =>
        exact carryOut_keeps declared (anything _) (fun _ _ => adds (addVerb_adds declared)) ..
      case pronoun =>
        exact carryOut_keeps declared (Taking.pronoun_yields declared)
          (fun _ own => adds (addPronoun_adds declared own)) ..
      case stopWords =>
        exact carryOut_keeps declared (anything _) (fun _ _ => adds (addStopWords_adds declared)) ..
      case placeholder =>
        exact carryOut_keeps declared (Taking.placeholder_yields declared)
          (fun _ own => adds (addPlaceholder_adds declared own)) ..
      case optional =>
        refine carryOut_keeps declared (anything _) (fun _ _ => ?_) ..
        exact Leads.bind (addOptional_adds declared) fun _ after kept _ => .pure kept trivial

theorem carryOutAll_keeps (text : List Char) (declared : builder.Declared) :
    Keeps builder (carryOutAll text) := by
  fun_induction carryOutAll text generalizing builder with
  | case1 text nothing => exact .pure declared trivial
  | case2 text c more skipped shorter ih =>
      refine (Leads.consult declared fun _ _ => trivial).bind fun found after kept _ => ?_
      exact (statement_keeps kept found.1).bind fun _ last kept _ => ih found.2 kept

end Notation

namespace Grammar

variable {text : String} {grammar : Grammar Amount}

theorem declared_of_ofText (read : ofText text = .ok grammar) :
    ∀ entry ∈ grammar.allRules, entry.2.Declared grammar.concepts := by
  have kept := (Notation.carryOutAll_keeps text.toList Builder.declared_empty).holds
  unfold ofText at read
  split at read
  · cases read
  · rename_i builder built
    split at read
    · cases read
    · obtain ⟨rules, concepts⟩ := builder.finish_ensures grammar read
      have declared : builder.Declared := by
        have ran : (Notation.carryOutAll text.toList Builder.empty).2 = builder :=
          congrArg Prod.snd built
        exact ran ▸ kept
      intro entry member
      obtain ⟨own, found, among⟩ := mem_rulesOf.1 (mem_allRules.1 member)
      rw [concepts]
      exact declared.rules entry.1 own (rules ▸ found) entry.2 among

/-- A meaning in a grammar that is written as text is made of declared concepts that take the
arguments that they are given.  It can be completed just if what waits for arguments in it is alone
and waits for something. -/
theorem ofText_completable (read : ofText text = .ok grammar) :
    ∀ entry ∈ grammar.allRules, ∀ meaning ∈ entry.2.meaning,
      meaning.Declared grammar.concepts ∧ (meaning.Completable ↔ meaning.Placed) := by
  intro entry member meaning own
  have declared := declared_of_ofText read entry member meaning own
  exact ⟨declared, declared.checked.completable_iff⟩

/-- Whether a text is a grammar in which a meaning is as described. -/
def hasMeaning (text : String) (holds : Meaning Amount → Bool) : Bool :=
  (ofText text).toOption.any fun grammar =>
    grammar.allRules.any fun entry => entry.2.meaning.any holds

theorem exists_of_hasMeaning {holds : Meaning Amount → Bool}
    (has : hasMeaning text holds = true) : ∃ grammar, ofText text = .ok grammar ∧
      ∃ entry ∈ grammar.allRules, ∃ meaning ∈ entry.2.meaning, holds meaning = true := by
  obtain ⟨grammar, read, among⟩ := exists_ok_of_any has
  obtain ⟨entry, member, given⟩ := List.any_eq_true.1 among
  obtain ⟨meaning, own, holds⟩ := (Option.any_eq_true ..).1 given
  exact ⟨grammar, read, entry, member, meaning, own, holds⟩

set_option maxRecDepth 100000 in
theorem ofText_completable_repositories : ∃ grammar,
    ofText "@function repos;\n@function author;\nS[sem: repos(author)] -> by;" = .ok grammar ∧
      (∀ entry ∈ grammar.allRules, ∀ meaning ∈ entry.2.meaning,
        meaning.Declared grammar.concepts ∧ (meaning.Completable ↔ meaning.Placed)) ∧
      ∃ entry ∈ grammar.allRules, ∃ meaning ∈ entry.2.meaning,
        meaning.isOpen = true ∧ meaning.Placed := by
  have has : hasMeaning "@function repos;\n@function author;\nS[sem: repos(author)] -> by;"
      (fun meaning => meaning.isOpen && decide meaning.Placed) = true := by
    decide +kernel
  obtain ⟨grammar, read, entry, member, meaning, own, both⟩ := exists_of_hasMeaning has
  rw [Bool.and_eq_true, decide_eq_true_eq] at both
  exact ⟨grammar, read, ofText_completable read, entry, member, meaning, own, both⟩

set_option maxRecDepth 100000 in
/-- A function that takes no arguments is accepted, though nothing can ever complete it. -/
theorem ofText_incompletable : ∃ grammar,
    ofText "@function author[max: 0];\nS[sem: author] -> by;" = .ok grammar ∧
      ∃ entry ∈ grammar.allRules, ∃ meaning ∈ entry.2.meaning, ¬ meaning.Completable := by
  have has : hasMeaning "@function author[max: 0];\nS[sem: author] -> by;"
      (fun meaning => decide ¬ meaning.Placed) = true := by
    decide +kernel
  obtain ⟨grammar, read, entry, member, meaning, own, misplaced⟩ := exists_of_hasMeaning has
  exact ⟨grammar, read, entry, member, meaning, own, fun completable =>
    of_decide_eq_true misplaced completable.placed⟩

end Grammar

end QueryGrammar
