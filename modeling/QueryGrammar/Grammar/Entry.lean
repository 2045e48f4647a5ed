import QueryGrammar.Grammar.Builder
import QueryGrammar.Text.Case

namespace QueryGrammar

/-! Entries of a vocabulary, and the rules that each of them stands for. -/

/-- An input that is accepted in place of something else. -/
structure Substitution (κ : Type) where
  literal : String
  penalty : κ

/-- A plain word. -/
structure WordEntry (κ : Type) where
  /-- Displayed as typed. The first corrects the substitutions. -/
  accepted : List String
  substitutions : List (Substitution κ)
  insertionCost : Option κ
  /-- May be left out without penalty. -/
  isOptional : Bool

/-- A verb, displayed in the inflection that its subject or form selects. -/
structure VerbEntry (κ : Type) where
  firstSingular : String
  thirdSingular : String
  plural : String
  past : Option String
  /-- Accepted for every subject, and displayed as typed. -/
  accepted : List String
  substitutions : List (Substitution κ)
  insertionCost : Option κ

/-- A pronoun. Either form is accepted in place of the other. -/
structure PronounEntry (κ : Type) where
  nominative : String
  objective : String
  substitutions : List (Substitution κ)
  insertionCost : Option κ
  meaning : Option (Meaning κ)

/-- A category whose entities are matched by name. -/
structure PlaceholderEntry (κ : Type) where
  category : String
  meaning : Option (Meaning κ)

variable {κ : Type} [Cost κ]

def Substitution.rule (wording : Wording) (substitution : Substitution κ) : Rule κ :=
  { production := .literal substitution.literal
    cost := substitution.penalty
    role := .substitution
    wording := some wording }

/-- Gives the first rule the cost of inserting it. -/
def insertFirst (cost : Option κ) : List (Rule κ) → List (Rule κ)
  | [] => []
  | first :: rest => { first with insertionCost := cost } :: rest

/-- Keeps the first of equal texts. -/
def distinct : List String → List String → List String
  | kept, [] => kept
  | kept, first :: rest =>
      if kept.contains first then distinct kept rest else distinct (kept ++ [first]) rest

namespace WordEntry

def flaw? (entry : WordEntry κ) : Option RuleFlaw :=
  if entry.accepted.isEmpty then some .wordWithoutForms
  else if entry.accepted.contains emptyLiteral then some .wordAcceptsEmpty
  else if entry.isOptional && entry.insertionCost.isSome then some .insertedOptionalWord
  else none

def rules (entry : WordEntry κ) : List (Rule κ) :=
  (if entry.isOptional then [Rule.literal emptyLiteral] else []) ++
    insertFirst entry.insertionCost (entry.accepted.map fun word =>
      { Rule.literal word with wording := some (.fixed word) }) ++
    entry.substitutions.map (Substitution.rule (.fixed (entry.accepted.headD "")))

end WordEntry

namespace VerbEntry

def flaw? (entry : VerbEntry κ) : Option RuleFlaw :=
  if entry.firstSingular.isEmpty || entry.thirdSingular.isEmpty || entry.plural.isEmpty then
    some .verbWithoutInflection
  else none

def wording (entry : VerbEntry κ) : Wording :=
  .inflected {
    firstSingular := some entry.firstSingular
    thirdSingular := some entry.thirdSingular
    plural := some entry.plural
    past := entry.past }

/-- The different inflections, in order. -/
def inflections (entry : VerbEntry κ) : List String :=
  distinct [] ([entry.firstSingular, entry.thirdSingular, entry.plural] ++ entry.past.toList)

def rules (entry : VerbEntry κ) : List (Rule κ) :=
  insertFirst entry.insertionCost (entry.inflections.map fun word =>
      { Rule.literal word with wording := some entry.wording }) ++
    entry.accepted.map (fun word => { Rule.literal word with wording := some (.fixed word) }) ++
    entry.substitutions.map (Substitution.rule entry.wording)

end VerbEntry

namespace PronounEntry

def wording (entry : PronounEntry κ) : Wording :=
  .inflected { nominative := some entry.nominative, objective := some entry.objective }

def literals (entry : PronounEntry κ) : List String :=
  distinct [] [Text.lower entry.nominative, Text.lower entry.objective]

def rules (entry : PronounEntry κ) : List (Rule κ) :=
  insertFirst entry.insertionCost (entry.literals.map fun word =>
      { Rule.literal word with wording := some entry.wording, meaning := entry.meaning }) ++
    entry.substitutions.map fun substitution =>
      { substitution.rule entry.wording with meaning := entry.meaning }

end PronounEntry

/-- Stop words may be missing; each of them is accepted and displays nothing. -/
def stopWordRules (words : List (Substitution κ)) : List (Rule κ) :=
  Rule.literal emptyLiteral :: words.map fun word =>
    { production := .literal word.literal, cost := word.penalty, role := .stopWord }

namespace PlaceholderEntry

def literal (entry : PlaceholderEntry κ) : String :=
  "\x7b" ++ entry.category ++ "\x7d"

def rule (entry : PlaceholderEntry κ) : Rule κ :=
  { Rule.literal entry.literal with role := .placeholder, meaning := entry.meaning }

end PlaceholderEntry

namespace Build

/-- Fails before anything is added if the entry has a flaw. -/
def refuse (symbol : String) : Option RuleFlaw → Build κ Unit
  | none => pure ()
  | some flaw => throw (.malformedRule symbol flaw)

def addWord (symbol : String) (entry : WordEntry κ) : Build κ Unit := do
  refuse symbol entry.flaw?
  addRules symbol entry.rules

def addVerb (symbol : String) (entry : VerbEntry κ) : Build κ Unit := do
  refuse symbol entry.flaw?
  addRules symbol entry.rules

def addPronoun (symbol : String) (entry : PronounEntry κ) : Build κ Unit :=
  addRules symbol entry.rules

def addStopWords (symbol : String) (words : List (Substitution κ)) : Build κ Unit :=
  addRules symbol (stopWordRules words)

def addSubstitutions (symbol : String) (substitutions : List (Substitution κ))
    (wording : Wording) : Build κ Unit :=
  addRules symbol (substitutions.map (Substitution.rule wording))

def addPlaceholder (symbol : String) (entry : PlaceholderEntry κ) : Build κ Unit :=
  addRule symbol entry.rule

end Build

end QueryGrammar
