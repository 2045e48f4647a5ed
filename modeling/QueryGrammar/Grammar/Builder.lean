import QueryGrammar.Grammar.Validity

namespace QueryGrammar

/-! Building grammars step by step.

A step that fails reports why and leaves the builder as far as it got: the rules that were added
before the failing one stay.
-/

structure Builder (κ : Type) where
  start : Option String
  rules : Dictionary (List (Rule κ))
  concepts : Dictionary (Concept κ)

/-- A step on a builder. -/
abbrev Build (κ : Type) := ExceptT GrammarError (StateM (Builder κ))

namespace Builder

variable {κ : Type} [Cost κ]

def empty : Builder κ := ⟨none, {}, {}⟩

def rulesOf (builder : Builder κ) (symbol : String) : List (Rule κ) :=
  (builder.rules.get? symbol).getD []

/-- The rule with what its meaning costs, and with what sets it apart from the rules before it. -/
def priced (rule : Rule κ) (position : Nat) : Rule κ :=
  let cost := match rule.meaning with
    | some meaning => rule.cost + meaning.cost
    | none => rule.cost
  { rule with cost := cost + Cost.increment position }

/-- Whether a symbol has a rule already that is the same up to forms. -/
def repeats (builder : Builder κ) (symbol : String) (rule : Rule κ) : Bool :=
  (builder.rulesOf symbol).any fun other => other.production.sameAs rule.production

/-- The builder with a symbol that it knows from now on. -/
def opened (builder : Builder κ) (symbol : String) : Builder κ :=
  { builder with rules := builder.rules.alter symbol (·.getD []) }

/-- The builder with a rule behind the others of its symbol. The first rule of all decides on the
start, unless there is one. -/
def extended (builder : Builder κ) (symbol : String) (rule : Rule κ) : Builder κ :=
  let existing := builder.rulesOf symbol
  { builder with
    start := builder.start <|> some symbol
    rules := builder.rules.insert symbol (existing ++ [priced rule existing.length]) }

def newSymbol? (builder : Builder κ) (symbol : String) : Except GrammarError (Builder κ) :=
  if builder.rules.contains symbol then .error (.duplicateSymbol symbol)
  else .ok { builder with rules := builder.rules.insert symbol [] }

def define? (builder : Builder κ) (concept : Concept κ) : Except GrammarError (Builder κ) :=
  if builder.concepts.contains concept.name then .error (.duplicateConcept concept.name)
  else .ok { builder with concepts := builder.concepts.insert concept.name concept }

def concept? (builder : Builder κ) (name : String) : Except GrammarError (Concept κ) :=
  match builder.concepts.get? name with
  | some concept => .ok concept
  | none => .error (.unknownConcept name)

/-- The grammar built so far, if it is valid. -/
def finish (builder : Builder κ) : Except GrammarError (Grammar κ) :=
  match builder.start with
  | none => .error (.missingStart "<none>")
  | some start => do
      let grammar : Grammar κ := ⟨start, builder.rules, builder.concepts⟩
      grammar.validate
      .ok grammar

end Builder

namespace Build

variable {κ : Type} [Cost κ]

/-- A step that either succeeds or leaves the builder alone. -/
def attempt (step : Builder κ → Except GrammarError (Builder κ)) : Build κ Unit :=
  fun builder => match step builder with
    | .ok changed => (.ok (), changed)
    | .error cause => (.error cause, builder)

/-- A step that only looks at the builder. -/
def consult (look : Builder κ → Except GrammarError α) : Build κ α :=
  fun builder => (look builder, builder)

def setStart (symbol : String) : Build κ Unit :=
  attempt fun builder => .ok { builder with start := some symbol }

def newSymbol (symbol : String) : Build κ Unit :=
  attempt (·.newSymbol? symbol)

def define (concept : Concept κ) : Build κ Unit :=
  attempt (·.define? concept)

/-- Adds a rule to a symbol, which need not be known before. -/
def addRule (symbol : String) (rule : Rule κ) : Build κ Unit := do
  consult fun _ => rule.check symbol
  attempt fun builder => .ok (builder.opened symbol)
  consult fun builder =>
    require (!builder.repeats symbol rule) (.duplicateRule symbol rule.production.text)
  attempt fun builder => .ok (builder.extended symbol rule)

/-- Adds rules in order, up to the first that is refused. -/
def addRules (symbol : String) : List (Rule κ) → Build κ Unit
  | [] => pure ()
  | rule :: rest => do
      addRule symbol rule
      addRules symbol rest

/-- Creates a symbol that stands for another one or for nothing, and returns its name. -/
def addOptional (symbol : String) : Build κ String := do
  let optional := symbol ++ "-opt"
  newSymbol optional
  addRules optional [{ Rule.symbols [symbol] with noInsert := true }, Rule.literal emptyLiteral]
  pure optional

end Build

end QueryGrammar
