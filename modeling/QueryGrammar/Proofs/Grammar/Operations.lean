import QueryGrammar.Proofs.Grammar.Built

namespace QueryGrammar

/-! Runs of operations on a builder, some of which may fail.

Main statement: whatever operations were tried on a new builder, the rules of a symbol are those
that were accepted for it, in order and each at its price, and an operation that fails leaves the
builder with what it added before.
-/

variable {κ : Type} [Cost κ] {builder after : Builder κ} {symbol other : String} {rule : Rule κ}

/-! Adding several rules. -/

namespace Build

variable {entries : List (String × Rule κ)}

def addEach : List (String × Rule κ) → Build κ Unit
  | [] => pure ()
  | (symbol, rule) :: rest => do
      addRule symbol rule
      addEach rest

/-- The rules that are added before one is refused. -/
def accepted : List (String × Rule κ) → Builder κ → List (String × Rule κ)
  | [], _ => []
  | (symbol, rule) :: rest, builder =>
      match addRule symbol rule builder with
      | (.ok (), after) => (symbol, rule) :: accepted rest after
      | (.error _, _) => []

theorem addRules_eq_addEach (symbol : String) (rules : List (Rule κ)) :
    addRules symbol rules = addEach (rules.map fun rule => (symbol, rule)) := by
  induction rules with
  | nil => rfl
  | cons first rest ih => rw [addRules, ih, List.map_cons, addEach]

/-- Either all rules are accepted, or some of them up to one that is refused. -/
theorem addEach_cases (entries : List (String × Rule κ)) (builder : Builder κ) :
    (∃ after, addEach entries builder = (.ok (), after) ∧ accepted entries builder = entries) ∨
      ∃ cause after refused rest, addEach entries builder = (.error cause, after) ∧
        entries = accepted entries builder ++ refused :: rest ∧
        addEach (accepted entries builder) builder = (.ok (), after) := by
  induction entries generalizing builder with
  | nil => exact .inl ⟨builder, rfl, rfl⟩
  | cons first rest ih =>
      obtain ⟨symbol, rule⟩ := first
      by_cases accepts : builder.Accepts symbol rule
      · have head := addRule_ok accepts
        simp only [addEach, accepted, bind_eq, head]
        rcases ih ((builder.opened symbol).extended symbol rule) with
          ⟨after, added, all⟩ | ⟨cause, after, refused, others, failed, parts, added⟩
        · exact .inl ⟨after, added, by rw [all]⟩
        · exact .inr ⟨cause, after, refused, others, failed, by rw [List.cons_append, ← parts], added⟩
      · obtain ⟨cause, head⟩ := addRule_error accepts
        simp only [addEach, accepted, bind_eq, head]
        exact .inr ⟨cause, builder, (symbol, rule), rest, rfl, rfl, rfl⟩

end Build

/-! What a builder holds after some rules were accepted. -/

/-- The rules of one symbol among those that were accepted. -/
def rulesAmong (history : List (String × Rule κ)) (symbol : String) : List (Rule κ) :=
  (history.filter fun entry => entry.1 == symbol).map (·.2)

omit [Cost κ] in
theorem rulesAmong_append (history : List (String × Rule κ)) (symbol other : String) (rule : Rule κ) :
    rulesAmong (history ++ [(symbol, rule)]) other =
      rulesAmong history other ++ if symbol = other then [rule] else [] := by
  rw [rulesAmong, rulesAmong, List.filter_append, List.map_append]
  by_cases here : symbol = other <;> simp [here]

/-- A rule's own cost with that of its meaning. -/
def Rule.meantCost (rule : Rule κ) : κ :=
  match rule.meaning with
  | some meaning => rule.cost + meaning.cost
  | none => rule.cost

namespace Builder

variable {named : Option String} {history : List (String × Rule κ)}

/-- A builder on which the last start that was set, if any, is `named`, and to which the rules of
`history` were added. -/
structure Accounts (builder : Builder κ) (named : Option String) (history : List (String × Rule κ)) :
    Prop where
  start : builder.start = (named <|> history.head?.map (·.1))
  stored : ∀ symbol, builder.rulesOf symbol =
    (rulesAmong history symbol).mapIdx fun position given => priced given position
  checked : ∀ entry ∈ history, entry.2.check entry.1 = .ok ()
  apart : ∀ symbol, (builder.rulesOf symbol).Pairwise fun rule other =>
    rule.production.sameAs other.production = false

theorem accounts_empty : (empty : Builder κ).Accounts none [] where
  start := rfl
  stored _ := rfl
  checked := List.forall_mem_nil _
  apart _ := .nil

/-- The history accounts for rules and start, and for nothing else. -/
theorem Accounts.congr (accounts : builder.Accounts named history) {newly : Option String}
    (start : after.start = (newly <|> builder.start))
    (same : ∀ symbol, after.rulesOf symbol = builder.rulesOf symbol) :
    after.Accounts (newly <|> named) history where
  start := by rw [start, accounts.start]; cases newly <;> rfl
  stored symbol := by rw [same, accounts.stored]
  checked := accounts.checked
  apart symbol := by rw [same]; exact accounts.apart symbol

theorem Accounts.extended (accounts : builder.Accounts named history)
    (accepts : builder.Accepts symbol rule) :
    ((builder.opened symbol).extended symbol rule).Accounts named (history ++ [(symbol, rule)]) where
  start := by
    show (builder.start <|> some symbol) = _
    rw [accounts.start, List.head?_append]
    cases named <;> cases history.head? <;> rfl
  stored other := by
    have length : (builder.rulesOf symbol).length = (rulesAmong history symbol).length := by
      rw [accounts.stored, List.length_mapIdx]
    rw [rulesOf_extended, rulesOf_opened, rulesOf_opened, length, accounts.stored, accounts.stored,
      rulesAmong_append]
    by_cases here : other = symbol
    · rw [here, if_pos rfl, if_pos rfl, List.mapIdx_concat]
    · rw [if_neg here, if_neg (Ne.symm here), List.append_nil]
  checked := List.forall_mem_append.2 ⟨accounts.checked, List.forall_mem_singleton.2 accepts.checked⟩
  apart other := by
    rw [rulesOf_extended, rulesOf_opened, rulesOf_opened]
    split
    · exact List.pairwise_append.2 ⟨accounts.apart symbol, List.pairwise_singleton _ _,
        fun other member last same => List.mem_singleton.1 same ▸ accepts.new other member⟩
    · exact accounts.apart other

/-- Rules that are added account for themselves. -/
theorem Accounts.addEach (accounts : builder.Accounts named history)
    (entries : List (String × Rule κ)) :
    (Build.addEach entries builder).2.Accounts named (history ++ Build.accepted entries builder) := by
  induction entries generalizing builder history with
  | nil => rwa [Build.accepted, List.append_nil]
  | cons first rest ih =>
      obtain ⟨symbol, rule⟩ := first
      by_cases accepts : builder.Accepts symbol rule
      · have later := ih (accounts.extended accepts)
        rw [List.append_assoc, List.singleton_append] at later
        simpa only [Build.addEach, Build.accepted, Build.bind_eq, Build.addRule_ok accepts] using later
      · obtain ⟨cause, refused⟩ := Build.addRule_error accepts
        simpa only [Build.addEach, Build.accepted, Build.bind_eq, refused, List.append_nil] using accounts

end Builder

/-! Operations. -/

/-- What can be done to a builder. -/
inductive Operation (κ : Type) where
  | setStart (symbol : String)
  | newSymbol (symbol : String)
  | define (concept : Concept κ)
  | lookUp (name : String)
  | addRule (symbol : String) (rule : Rule κ)
  | addWord (symbol : String) (entry : WordEntry κ)
  | addVerb (symbol : String) (entry : VerbEntry κ)
  | addPronoun (symbol : String) (entry : PronounEntry κ)
  | addStopWords (symbol : String) (words : List (Substitution κ))
  | addSubstitutions (symbol : String) (substitutions : List (Substitution κ)) (wording : Wording)
  | addPlaceholder (symbol : String) (entry : PlaceholderEntry κ)
  | addOptional (symbol : String)

namespace Operation

variable {operation : Operation κ} {named : Option String} {past : List (String × Rule κ)}

def step : Operation κ → Build κ Unit
  | .setStart symbol => Build.setStart symbol
  | .newSymbol symbol => Build.newSymbol symbol
  | .define concept => Build.define concept
  | .lookUp name => do let _ ← Build.consult (·.concept? name)
  | .addRule symbol rule => Build.addRule symbol rule
  | .addWord symbol entry => Build.addWord symbol entry
  | .addVerb symbol entry => Build.addVerb symbol entry
  | .addPronoun symbol entry => Build.addPronoun symbol entry
  | .addStopWords symbol words => Build.addStopWords symbol words
  | .addSubstitutions symbol substitutions wording =>
      Build.addSubstitutions symbol substitutions wording
  | .addPlaceholder symbol entry => Build.addPlaceholder symbol entry
  | .addOptional symbol => do let _ ← Build.addOptional symbol

/-- What is done before rules are added. -/
def prepare : Operation κ → Build κ Unit
  | .setStart symbol => Build.setStart symbol
  | .newSymbol symbol => Build.newSymbol symbol
  | .define concept => Build.define concept
  | .lookUp name => do let _ ← Build.consult (·.concept? name)
  | .addWord symbol entry => Build.refuse symbol entry.flaw?
  | .addVerb symbol entry => Build.refuse symbol entry.flaw?
  | .addOptional symbol => Build.newSymbol (symbol ++ "-opt")
  | _ => pure ()

/-- The rules to be added, in order. -/
def rules : Operation κ → List (String × Rule κ)
  | .addRule symbol rule => [(symbol, rule)]
  | .addWord symbol entry => entry.rules.map (symbol, ·)
  | .addVerb symbol entry => entry.rules.map (symbol, ·)
  | .addPronoun symbol entry => entry.rules.map (symbol, ·)
  | .addStopWords symbol words => (stopWordRules words).map (symbol, ·)
  | .addSubstitutions symbol substitutions wording =>
      (substitutions.map (Substitution.rule wording)).map (symbol, ·)
  | .addPlaceholder symbol entry => [(symbol, entry.rule)]
  | .addOptional symbol =>
      [(symbol ++ "-opt", { Rule.symbols [symbol] with noInsert := true }),
        (symbol ++ "-opt", Rule.literal emptyLiteral)]
  | _ => []

/-- Every operation comes to adding rules, after something that adds none. -/
theorem step_eq (operation : Operation κ) :
    operation.step = operation.prepare >>= fun _ => Build.addEach operation.rules := by
  cases operation <;>
    simp [step, prepare, rules, Build.addEach, Build.addRules_eq_addEach, Build.addWord,
      Build.addVerb, Build.addPronoun, Build.addStopWords, Build.addSubstitutions,
      Build.addPlaceholder, Build.addOptional]

/-- The start that is set. -/
def start? : Operation κ → Option String
  | .setStart symbol => some symbol
  | _ => none

/-- Whether at most one rule is added, or two that are not refused once their symbol is new. -/
def isAtomic : Operation κ → Bool
  | .addWord .. | .addVerb .. | .addPronoun .. | .addStopWords .. | .addSubstitutions .. => false
  | _ => true

/-- The rules that are added: all of them, or those before one that is refused. -/
def accepted (operation : Operation κ) (builder : Builder κ) : List (String × Rule κ) :=
  match operation.prepare builder with
  | (.ok (), ready) => Build.accepted operation.rules ready
  | (.error _, _) => []

/-- A step that adds no rule: it sets the start at most, and changes nothing if it fails. -/
structure Spares (newly : Option String) (step : Build κ Unit) (builder : Builder κ) : Prop where
  start : (step builder).2.start = (newly <|> builder.start)
  rules : ∀ symbol, (step builder).2.rulesOf symbol = builder.rulesOf symbol
  fails : ∀ cause, (step builder).1 = .error cause → (step builder).2 = builder

section

omit [Cost κ]

variable {step : Build κ Unit} {newly : Option String}

theorem Spares.of_error {cause : GrammarError} (ran : step builder = (.error cause, builder)) :
    Spares none step builder :=
  ⟨by rw [ran]; rfl, fun _ => by rw [ran], fun _ _ => by rw [ran]⟩

theorem Spares.of_ok (ran : step builder = (.ok (), after))
    (start : after.start = (newly <|> builder.start))
    (rules : ∀ symbol, after.rulesOf symbol = builder.rulesOf symbol) : Spares newly step builder :=
  ⟨by rw [ran]; exact start, fun symbol => by rw [ran]; exact rules symbol,
    fun _ failed => by rw [ran] at failed; cases failed⟩

theorem newSymbol_spares : Spares none (Build.newSymbol symbol) builder := by
  obtain ⟨cause, failed⟩ | ⟨opened, ran, start, -, rules⟩ := Build.newSymbol_cases symbol builder
  · exact .of_error failed
  · exact .of_ok ran start rules

theorem define_spares {concept : Concept κ} : Spares none (Build.define concept) builder := by
  obtain ⟨cause, failed⟩ | ⟨defined, ran, start, rules⟩ := Build.define_cases concept builder
  · exact .of_error failed
  · exact .of_ok ran start fun symbol => by rw [Builder.rulesOf, rules, Builder.rulesOf]

theorem refuse_spares {flaw : Option RuleFlaw} : Spares none (Build.refuse symbol flaw) builder := by
  cases flaw with
  | none => exact .of_ok rfl rfl fun _ => rfl
  | some flaw => exact .of_error rfl

theorem lookUp_spares {name : String} :
    Spares none (do let _ ← Build.consult (·.concept? name)) builder := by
  cases found : builder.concept? name with
  | error cause => exact .of_error (by rw [Build.bind_eq, Build.consult, found])
  | ok concept =>
      exact .of_ok (by rw [Build.bind_eq, Build.consult, found]; rfl) rfl fun _ => rfl

theorem prepare_spares (operation : Operation κ) (builder : Builder κ) :
    Spares operation.start? operation.prepare builder := by
  cases operation with
  | setStart symbol => exact .of_ok rfl rfl fun _ => rfl
  | newSymbol symbol => exact newSymbol_spares
  | addOptional symbol => exact newSymbol_spares
  | define concept => exact define_spares
  | lookUp name => exact lookUp_spares
  | addWord symbol entry => exact refuse_spares
  | addVerb symbol entry => exact refuse_spares
  | _ => exact .of_ok rfl rfl fun _ => rfl

end

/-- Once its symbol is new, the two rules of an optional symbol are accepted. -/
theorem optional_added (nonnegative : Cost.isNonnegative (0 : κ) = true)
    (finite : Cost.isFinite (0 : κ) = true) {ready : Builder κ}
    (opened : (addOptional symbol).prepare builder = (.ok (), ready)) :
    ∃ after, Build.addEach (addOptional symbol : Operation κ).rules ready = (.ok (), after) := by
  obtain ⟨cause, failed⟩ | ⟨changed, ran, -, none, same⟩ :=
    Build.newSymbol_cases (symbol ++ "-opt") builder
  · cases failed.symm.trans opened
  cases ran.symm.trans opened
  rw [← same] at none
  have first : ready.Accepts (symbol ++ "-opt") { Rule.symbols [symbol] with noInsert := true } := by
    refine ⟨?_, by simp [none]⟩
    simp [Rule.check, Rule.symbols, Rule.flaw?, Rule.misfit?, Production.isBlankLiteral, Rule.isLiteral,
      Production.isLiteral, nonnegative, finite]
  have second : ((ready.opened (symbol ++ "-opt")).extended (symbol ++ "-opt")
      { Rule.symbols [symbol] with noInsert := true }).Accepts (symbol ++ "-opt")
      (Rule.literal emptyLiteral) := by
    have words : Text.isBlankText emptyLiteral = false := by decide +kernel
    refine ⟨?_, ?_⟩
    · simp [Rule.check, Rule.literal, Rule.flaw?, Rule.misfit?, Production.isBlankLiteral, words,
        Rule.isInflectionless, nonnegative, finite]
    · rw [Builder.rulesOf_extended, if_pos rfl, Builder.rulesOf_opened, none]
      exact List.forall_mem_singleton.2 rfl
  simp only [rules, Build.addEach, Build.bind_eq, Build.addRule_ok first, Build.addRule_ok second]
  exact ⟨_, rfl⟩

omit [Cost κ] in
theorem ready_of_refuse {flaw : Option RuleFlaw} {ready : Builder κ}
    (passed : Build.refuse symbol flaw builder = (.ok (), ready)) : ready = builder := by
  cases flaw <;> cases passed
  rfl

/-- Rules are only refused where nothing was done before them, and no rule comes before the one that
is refused unless the operation adds several. -/
theorem refused_cases (nonnegative : Cost.isNonnegative (0 : κ) = true)
    (finite : Cost.isFinite (0 : κ) = true) {cause : GrammarError} {ready : Builder κ}
    {before rest : List (String × Rule κ)} {refused : String × Rule κ}
    (prepared : operation.prepare builder = (.ok (), ready))
    (failed : Build.addEach operation.rules ready = (.error cause, after))
    (parts : operation.rules = before ++ refused :: rest) :
    ready = builder ∧ (operation.isAtomic = true → before = []) := by
  have single : ∀ {entry}, [entry] = before ++ refused :: rest → before = [] := by
    intro entry parts
    cases before with
    | nil => rfl
    | cons first others => simp at parts
  cases operation with
  | addOptional symbol =>
      obtain ⟨_, added⟩ := optional_added nonnegative finite prepared
      cases failed.symm.trans added
  | addWord symbol entry => exact ⟨ready_of_refuse prepared, fun atomic => nomatch atomic⟩
  | addVerb symbol entry => exact ⟨ready_of_refuse prepared, fun atomic => nomatch atomic⟩
  | addRule symbol rule => cases prepared; exact ⟨rfl, fun _ => single parts⟩
  | addPlaceholder symbol entry => cases prepared; exact ⟨rfl, fun _ => single parts⟩
  | addPronoun symbol entry => cases prepared; exact ⟨rfl, fun atomic => nomatch atomic⟩
  | addStopWords symbol words => cases prepared; exact ⟨rfl, fun atomic => nomatch atomic⟩
  | addSubstitutions symbol substitutions wording =>
      cases prepared; exact ⟨rfl, fun atomic => nomatch atomic⟩
  | _ => cases failed

/-- An operation adds all of its rules, or fails with those before one that is refused. -/
theorem step_cases (nonnegative : Cost.isNonnegative (0 : κ) = true)
    (finite : Cost.isFinite (0 : κ) = true) (operation : Operation κ) (builder : Builder κ) :
    (∃ after, operation.step builder = (.ok (), after) ∧
      operation.accepted builder = operation.rules) ∨
    ∃ cause after, operation.step builder = (.error cause, after) ∧
      operation.accepted builder <+: operation.rules ∧
      Build.addEach (operation.accepted builder) builder = (.ok (), after) ∧
      (operation.isAtomic = true → operation.accepted builder = []) := by
  rw [step_eq, Build.bind_eq, accepted]
  rcases prepared : operation.prepare builder with ⟨cause | value, ready⟩
  · have same : ready = builder := by
      have fails := (operation.prepare_spares builder).fails
      rw [prepared] at fails
      exact fails cause rfl
    exact .inr ⟨cause, builder, by rw [same], List.nil_prefix, rfl, fun _ => rfl⟩
  · obtain ⟨after, added, all⟩ | ⟨cause, after, refused, rest, failed, parts, added⟩ :=
      Build.addEach_cases operation.rules ready
    · exact .inl ⟨after, added, all⟩
    · obtain ⟨same, alone⟩ := refused_cases nonnegative finite prepared failed parts
      exact .inr ⟨cause, after, failed, ⟨refused :: rest, parts.symm⟩, same ▸ added, alone⟩

/-! Runs. -/

/-- What a builder becomes by operations of which some may fail. -/
def run : List (Operation κ) → Builder κ → Builder κ
  | [], builder => builder
  | operation :: rest, builder => run rest (operation.step builder).2

/-- The rules that are added by operations of which some may fail. -/
def history : List (Operation κ) → Builder κ → List (String × Rule κ)
  | [], _ => []
  | operation :: rest, builder =>
      operation.accepted builder ++ history rest (operation.step builder).2

theorem step_accounts (accounts : builder.Accounts named past) (operation : Operation κ) :
    (operation.step builder).2.Accounts (operation.start? <|> named)
      (past ++ operation.accepted builder) := by
  have spares := operation.prepare_spares builder
  have first := accounts.congr spares.start spares.rules
  rw [step_eq, Build.bind_eq, accepted]
  rcases prepared : operation.prepare builder with ⟨cause | value, ready⟩
  · rw [prepared] at first
    rwa [List.append_nil]
  · rw [prepared] at first
    exact first.addEach operation.rules

theorem run_accounts {operations : List (Operation κ)} (accounts : builder.Accounts named past) :
    (run operations builder).Accounts
      ((operations.filterMap Operation.start?).getLast? <|> named)
      (past ++ history operations builder) := by
  induction operations generalizing builder named past with
  | nil => simpa [run, history] using accounts
  | cons first rest ih =>
      have later := ih (step_accounts accounts first)
      have last : ((rest.filterMap start?).getLast? <|> (first.start? <|> named)) =
          (((first :: rest).filterMap start?).getLast? <|> named) := by
        cases own : first.start? with
        | none => simp [own]
        | some symbol =>
            rw [List.filterMap_cons_some own, List.getLast?_cons]
            cases (rest.filterMap start?).getLast? <;> rfl
      rwa [last, List.append_assoc] at later

theorem addRule_succeeds_iff :
    (∃ after, (addRule symbol rule).step builder = (.ok (), after)) ↔
      builder.Accepts symbol rule := by
  constructor
  · intro succeeds
    obtain ⟨after, added⟩ := succeeds
    by_contra refuses
    obtain ⟨cause, failed⟩ := Build.addRule_error refuses
    cases failed.symm.trans added
  · exact fun accepts => ⟨_, Build.addRule_ok accepts⟩

/-- Wherever a run of operations on a new builder gets to, failures included, no two rules of a
symbol are the same up to forms, every rule is one that was accepted, with its own cost, that of its
meaning and what sets it apart from the rules before it, and the start is the last that was set or
else the symbol of the first rule that was accepted.

A rule is added just if it is well formed and new to its symbol.  An operation adds all of its rules
or fails.  Where it fails, those before one that is refused were added one by one and nothing else
happened; an atomic operation that fails changes nothing. -/
theorem operations_accounted (operations : List (Operation Amount)) :
    (∀ symbol, ((run operations .empty).rulesOf symbol).Pairwise fun rule other =>
      rule.production.sameAs other.production = false) ∧
    (∀ symbol, (run operations .empty).rulesOf symbol =
      (rulesAmong (history operations .empty) symbol).mapIdx fun position given =>
        { given with cost := given.meantCost + .known (Float.ofNat position * 1e-7) }) ∧
    (∀ entry ∈ history operations .empty, entry.2.check entry.1 = .ok ()) ∧
    (run operations .empty).start = ((operations.filterMap start?).getLast? <|>
      (history operations .empty).head?.map (·.1)) ∧
    (∀ symbol rule (builder : Builder Amount),
      (∃ after, (addRule symbol rule).step builder = (.ok (), after)) ↔
        builder.Accepts symbol rule) ∧
    ∀ (operation : Operation Amount) (builder after : Builder Amount),
      (operation.step builder = (.ok (), after) → operation.accepted builder = operation.rules) ∧
      ∀ cause, operation.step builder = (.error cause, after) →
        operation.accepted builder <+: operation.rules ∧
        Build.addEach (operation.accepted builder) builder = (.ok (), after) ∧
        (operation.isAtomic = true → after = builder) := by
  have accounts : (run operations .empty).Accounts _ ([] ++ history operations .empty) :=
    run_accounts Builder.accounts_empty
  rw [List.nil_append] at accounts
  refine ⟨accounts.apart, accounts.stored, accounts.checked, ?_, fun _ _ _ => addRule_succeeds_iff,
    fun operation builder after => ?_⟩
  · rw [accounts.start]
    cases (operations.filterMap start?).getLast? <;> rfl
  · obtain ⟨last, ran, all⟩ | ⟨reason, last, ran, part, added, alone⟩ :=
      step_cases (by decide +kernel) (by decide +kernel) operation builder
    · exact ⟨fun _ => all, fun cause failed => nomatch ran.symm.trans failed⟩
    · refine ⟨fun succeeded => (nomatch ran.symm.trans succeeded), fun cause failed => ?_⟩
      cases ran.symm.trans failed
      refine ⟨part, added, fun atomic => ?_⟩
      rw [alone atomic] at added
      cases added
      rfl

/-- A word of which one form is a rule of its symbol already. -/
def homograph : Operation Amount :=
  .addWord "Noun" ⟨["b", "a", "c"], [], none, false⟩

def firstRule : Operation Amount :=
  .addRule "Noun" (.literal "a")

set_option maxRecDepth 100000 in
theorem operations_accounted_homograph : ∃ built,
    firstRule.step .empty = (.ok (), built) ∧ firstRule.accepted .empty = firstRule.rules ∧
    (∃ cause after, homograph.step built = (.error cause, after) ∧
      homograph.accepted built <+: homograph.rules ∧
      Build.addEach (homograph.accepted built) built = (.ok (), after) ∧
      (homograph.accepted built).map (·.2.production) = [.literal "b"]) ∧
    ∃ cause, firstRule.step built = (.error cause, built) := by
  have runs : (firstRule.step .empty).1.isOk = true ∧
      (homograph.step (firstRule.step .empty).2).1.isOk = false ∧
      (firstRule.step (firstRule.step .empty).2).1.isOk = false ∧
      (homograph.accepted (firstRule.step .empty).2).map (·.2.production) = [.literal "b"] := by
    decide +kernel
  obtain ⟨succeeds, fails, failsAgain, first⟩ := runs
  obtain ⟨built, added⟩ := Build.exists_ok succeeds
  rw [added] at fails failsAgain first
  obtain ⟨cause, after, failed⟩ := Build.exists_error fails
  obtain ⟨reason, last, repeated⟩ := Build.exists_error failsAgain
  obtain ⟨-, -, -, -, -, each⟩ := operations_accounted [firstRule]
  obtain ⟨part, prior, -⟩ := (each homograph built after).2 cause failed
  obtain ⟨-, -, unchanged⟩ := (each firstRule built last).2 reason repeated
  exact ⟨built, added, (each firstRule .empty built).1 added,
    ⟨cause, after, failed, part, prior, first⟩, reason, by rw [repeated, unchanged rfl]⟩

end Operation

end QueryGrammar
