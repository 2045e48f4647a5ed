import QueryGrammar.Grammar.Notation.Options

namespace QueryGrammar.Notation

/-! Statements of the grammar notation, and grammars written in it.

A text is a sequence of rules and directives, each ended by a semicolon.  They are carried out one
after the other, each before the next is read.
-/

/-- One entry on the right of a rule. -/
inductive Part where
  | literal (text : String)
  | slot (slot : Slot)

inductive Directive where
  | start
  | function
  | argument
  | word
  | verb
  | pronoun
  | stopWords
  | placeholder
  | optional
deriving DecidableEq, Repr

inductive Statement where
  | rule (symbol : String) (options : Options) (parts : List Part)
  | directive (directive : Directive) (subject : String) (options : Options)

def Directive.ofName? : String → Option Directive
  | "start" => some .start
  | "function" => some .function
  | "argument" => some .argument
  | "word" => some .word
  | "verb" => some .verb
  | "pronoun" => some .pronoun
  | "stop-words" => some .stopWords
  | "placeholder" => some .placeholder
  | "optional" => some .optional
  | _ => none

/-- Drops a beginning that a text has. -/
def dropBeginning? : List Char → List Char → Option (List Char)
  | [], text => some text
  | _ :: _, [] => none
  | c :: more, first :: rest => if c = first then dropBeginning? more rest else none

theorem dropBeginning?_append {beginning text rest : List Char}
    (dropped : dropBeginning? beginning text = some rest) : text = beginning ++ rest := by
  induction beginning generalizing text with
  | nil =>
      cases dropped
      rfl
  | cons c more step =>
      cases text with
      | nil => cases dropped
      | cons first tail =>
          simp only [dropBeginning?] at dropped
          split at dropped
          · rename_i same
            rw [same, step dropped]
            rfl
          · cases dropped

/-- Reads a fixed text, if it comes next. -/
def fixed? (c : Char) (more : List Char) (text : List Char) : Option (Rest text) :=
  match dropped : dropBeginning? (c :: more) text with
  | some rest =>
      some ⟨rest, ⟨c :: more, (dropBeginning?_append dropped).symm⟩, by
        rw [dropBeginning?_append dropped]
        simp only [List.length_append, List.length_cons]
        omega⟩
  | none => none

/-- Reads a category in braces, if one comes next. -/
def placeholder? (text : List Char) : Option (String × Rest text) :=
  match text with
  | '\x7b' :: inside =>
      match readSpan "" isKeyChar inside with
      | .ok (category, rest) =>
          match readChar '\x7d' rest.chars with
          | .ok ((), closed) =>
              some ("\x7b" ++ category ++ "\x7d",
                (rest.further closed).behind '\x7b')
          | .error _ => none
      | .error _ => none
  | _ => none

/-- Whether a name is a literal, like the words that it matches. -/
def isLiteralName (name : String) : Bool :=
  match name.toList with
  | [] => false
  | c :: _ => c.isLower || c.isDigit

/-- Takes the form that a slot selects from its options. -/
def slotOf (symbol : String) (options : Options) : Except GrammarError Slot := do
  let (form, rest) ← Taking.named? "form" Form.ofLabel? .unknownForm options
  let _ ← Taking.finish symbol rest
  .ok ⟨symbol, form⟩

def readPart (text : List Char) : Reading Part text :=
  if text.head? = some '"' then do
    let (literal, rest) ← readWord text
    .ok (.literal literal, rest)
  else match fixed? '<' ['e', 'm', 'p', 't', 'y', '>'] text with
    | some rest => .ok (.literal emptyLiteral, rest)
    | none =>
        match placeholder? text with
        | some (literal, rest) => .ok (.literal literal, rest)
        | none => do
            let (name, rest) ← readName text
            if isLiteralName name then .ok (.literal name, rest)
            else do
              let (options, tail) ← readOptions (skip rest.chars)
              let slot ← slotOf name options
              .ok (.slot slot, rest.advance (tail.property.trans (skip_suffix _)))

/-- Reads the right side of a rule up to and with the semicolon. -/
def readParts (text : List Char) : Reading (List Part) text :=
  match close? ';' text with
  | some rest => .ok ([], rest)
  | none => do
      let (part, rest) ← readPart (skip text)
      let (parts, finished) ← readParts rest.chars
      .ok (part :: parts, (rest.further finished).within (skip_suffix text))
termination_by text.length
decreasing_by
  have shrinks := skip_length_le text
  have shorter := rest.shorter
  omega

def readRule (text : List Char) : Reading Statement text := do
  let (symbol, named) ← readName text
  let (options, tail) ← readOptions (skip named.chars)
  match fixed? '-' ['>'] (skip tail.val) with
  | none => expected "->" (skip tail.val)
  | some arrow =>
      let (parts, rest) ← readParts arrow.chars
      .ok (.rule symbol options parts,
        ((named.advance (tail.property.trans (skip_suffix _))).advance (skip_suffix _)).further
          (arrow.further rest))

def readDirective (text : List Char) : Reading Statement text := do
  let (_, marked) ← readChar '@' text
  let (name, named) ← readName marked.chars
  let (subject, subjected) ← readName (skip named.chars)
  let (options, tail) ← readOptions (skip subjected.chars)
  let (_, rest) ← readChar ';' (skip tail.val)
  match Directive.ofName? name with
  | none => fail (.unknownDirective name (context (skip tail.val)))
  | some directive =>
      .ok (.directive directive subject options,
        ((((marked.further named).advance (skip_suffix _)).further subjected).advance
          (tail.property.trans (skip_suffix _)) |>.advance (skip_suffix _)).further rest)

def readStatement (text : List Char) : Reading Statement text :=
  if text.head? = some '@' then readDirective text else readRule text

/-- A single literal makes a production of its own; otherwise every part is a symbol. -/
def productionOf (symbol : String) : List Part → Except GrammarError Production
  | [.literal text] => .ok (.literal text)
  | parts => do
      let slots ← mapAll (fun part => match part with
        | .slot slot => .ok slot
        | .literal text => .error (.malformedRule symbol (.literalAmongSymbols text))) parts
      .ok (.symbols slots)

def Taking.rule (builder : Builder Amount) (production : Production) : Taking (Rule Amount) := do
  let cost ← number "cost" 0
  let insertionCost ← number? "insert"
  let transpositionCost ← number? "transpose"
  let meaning ← meaning? builder
  let person ← named? "pn" Person.ofLabel? .unknownPerson
  let noInsert ← flag "no-insert"
  let role ← named? "kind" notedRole? .unknownRole
  let wording ← wording?
  pure {
    production, cost, insertionCost, transpositionCost, meaning, person, noInsert, wording
    role := role.getD .plain }
where
  /-- Rules are plain unless they say otherwise, so that role has no word. -/
  notedRole? (word : String) : Option Role :=
    (Role.ofLabel? word).filter (· != .plain)

/-- A number of arguments as it is given: cut down to a whole number, and kept between zero and the
largest 64-bit number. -/
def Taking.arity (key : String) : Taking Nat := do
  return (← number key (.ofNat 1)).toCount

def Taking.function (name : String) : Taking (Concept Amount) := do
  let fewest ← arity "min"
  let most ← arity "max"
  let cost ← number "cost" 0
  let exclusive ← flag "forbids-multiple"
  let people ← flag "people"
  pure ⟨name, cost, .function fewest most exclusive people⟩

def Taking.wordEntry : Taking (WordEntry Amount) := do
  let accepted ← words "accepted"
  let substitutions ← substitutions
  let insertionCost ← number? "insert"
  let isOptional ← flag "optional"
  pure { accepted, substitutions, insertionCost, isOptional }

def Taking.verb : Taking (VerbEntry Amount) := do
  let firstSingular ← word "one-sg"
  let thirdSingular ← word "three-sg"
  let plural ← word "pl"
  let past ← word? "past"
  let accepted ← words "accepted"
  let substitutions ← substitutions
  let insertionCost ← number? "insert"
  pure { firstSingular, thirdSingular, plural, past, accepted, substitutions, insertionCost }

def Taking.pronoun (builder : Builder Amount) : Taking (PronounEntry Amount) := do
  let nominative ← word "nom"
  let objective ← word "obj"
  let substitutions ← substitutions
  let insertionCost ← number? "insert"
  let meaning ← meaning? builder
  pure { nominative, objective, substitutions, insertionCost, meaning }

def Taking.placeholder (builder : Builder Amount) : Taking (PlaceholderEntry Amount) := do
  let category ← word "category"
  let meaning ← meaning? builder
  pure { category, meaning }

/-- Carries out a step with what is taken from the options, and then refuses what is left of
them. -/
def carryOut (options : Options) (subject : String) (taking : Builder Amount → Taking α)
    (step : α → Build Amount Unit) : Build Amount Unit := do
  let (taken, rest) ← Build.consult fun builder => taking builder options
  step taken
  let _ ← Build.consult fun _ => Taking.finish subject rest

def Statement.carryOut : Statement → Build Amount Unit
  | .rule symbol options parts => do
      let taken ← Build.consult fun builder => do
        let production ← productionOf symbol parts
        let (taken, rest) ← Taking.rule builder production options
        let _ ← Taking.finish symbol rest
        .ok taken
      Build.addRule symbol taken
  | .directive .start name options =>
      Notation.carryOut options name (fun _ => pure ()) fun () => Build.setStart name
  | .directive .function name options =>
      Notation.carryOut options name (fun _ => Taking.function name) Build.define
  | .directive .argument name options =>
      Notation.carryOut options name (fun _ => Taking.number "cost" 0) fun cost =>
        Build.define ⟨name, cost, .argument⟩
  | .directive .word name options =>
      Notation.carryOut options name (fun _ => Taking.wordEntry) (Build.addWord name)
  | .directive .verb name options =>
      Notation.carryOut options name (fun _ => Taking.verb) (Build.addVerb name)
  | .directive .pronoun name options =>
      Notation.carryOut options name Taking.pronoun (Build.addPronoun name)
  | .directive .stopWords name options =>
      Notation.carryOut options name (fun _ => Taking.penalized "sub-cost" "words")
        (Build.addStopWords name)
  | .directive .placeholder name options =>
      Notation.carryOut options name Taking.placeholder (Build.addPlaceholder name)
  | .directive .optional name options =>
      Notation.carryOut options name (fun _ => pure ()) fun () => do
        let _ ← Build.addOptional name

/-- Carries out every statement of a text. -/
def carryOutAll (text : List Char) : Build Amount Unit :=
  match skipped : skip text with
  | [] => pure ()
  | c :: more => do
      have _ : (c :: more).length ≤ text.length := skipped ▸ skip_length_le text
      let (statement, rest) ← Build.consult fun _ => readStatement (c :: more)
      statement.carryOut
      carryOutAll rest.chars
termination_by text.length
decreasing_by
  have shorter := rest.shorter
  omega

end QueryGrammar.Notation

namespace QueryGrammar

/-- Adds what a text in grammar notation says. -/
def Build.addText (text : String) : Build Amount Unit :=
  Notation.carryOutAll text.toList

/-- The grammar that a text describes. Its start is the symbol of the first rule, unless a
directive says otherwise. -/
def Grammar.ofText (text : String) : Except GrammarError (Grammar Amount) :=
  match (Build.addText text).run Builder.empty with
  | (.error cause, _) => .error cause
  | (.ok (), builder) =>
      if builder.start.isNone then .error (.badNotation .noRules) else builder.finish

end QueryGrammar
