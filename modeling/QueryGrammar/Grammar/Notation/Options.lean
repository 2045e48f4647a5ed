import QueryGrammar.Data.Check
import QueryGrammar.Decimal.Numeral
import QueryGrammar.Grammar.Entry
import QueryGrammar.Grammar.Notation.Lexeme
import QueryGrammar.Meaning.Siblings

namespace QueryGrammar.Notation

/-! Options: reading them, and taking them one by one.

Whoever uses options takes those it knows; one that is left over at the end is refused.
-/

mutual

/-- Reads a meaning: a word, perhaps with arguments in brackets. Commas between arguments are
optional. -/
def readMeaning (text : List Char) : Reading MeaningExpr text := do
  let (name, rest) ← readWord text
  match opened : skip rest.chars with
  | '(' :: inside =>
      let (args, closed) ← readArgs inside
      have ends : inside <:+ rest.chars :=
        (List.suffix_cons _ _).trans (opened ▸ skip_suffix rest.chars)
      .ok (.apply name args, rest.advance (closed.suffix.trans ends))
  | _ => .ok (.apply name [], rest.advance (skip_suffix rest.chars))
termination_by 2 * text.length
decreasing_by
  have shrinks := skip_length_le rest.chars
  have shorter := rest.shorter
  rw [opened] at shrinks
  simp only [List.length_cons] at shrinks
  omega

/-- Reads arguments up to and with the closing bracket. -/
def readArgs (text : List Char) : Reading (List MeaningExpr) text :=
  match close? ')' text with
  | some rest => .ok ([], rest)
  | none => do
      let (arg, rest) ← readMeaning (skip text)
      let (args, finished) ← readArgs (skipComma (skip rest.chars))
      .ok (arg :: args,
        ((rest.advance (skipComma_skip_suffix _)).further finished).within (skip_suffix text))
termination_by 2 * text.length + 1
decreasing_by
  · have shrinks := skip_length_le text
    omega
  · have shrinks := skip_length_le text
    have shorter := rest.shorter
    have before := (skipComma_skip_suffix rest.chars).length_le
    omega

end

/-- Reads pairs of keys and values up to and with a closing character. Commas between pairs are
optional. -/
def readPairs (close : Char) (readValue : String → (text : List Char) → Reading α text)
    (text : List Char) : Reading (List (String × α)) text :=
  match close? close text with
  | some rest => .ok ([], rest)
  | none => do
      let (key, keyed) ← readName (skip text)
      let (_, parted) ← readChar ':' (skip keyed.chars)
      let (value, valued) ← readValue key (skip parted.chars)
      let rest := ((keyed.advance (skip_suffix _)).further parted |>.advance (skip_suffix _)).further
        valued
      let (pairs, finished) ← readPairs close readValue (skipComma (skip valued.chars))
      .ok ((key, value) :: pairs,
        ((rest.advance (skipComma_skip_suffix _)).further finished).within (skip_suffix text))
termination_by text.length
decreasing_by
  have first := skip_length_le text
  have second := keyed.shorter
  have third := skip_length_le keyed.chars
  have fourth := parted.shorter
  have fifth := skip_length_le parted.chars
  have sixth := valued.shorter
  have last := (skipComma_skip_suffix valued.chars).length_le
  omega

/-- Reads words with bars between them. -/
def readWords (text : List Char) : Reading (List String) text := do
  let (word, rest) ← readWord text
  match barred : skip rest.chars with
  | '|' :: more =>
      have ends : skip more <:+ rest.chars :=
        (skip_suffix more).trans ((List.suffix_cons _ _).trans (barred ▸ skip_suffix rest.chars))
      let (others, finished) ← readWords (skip more)
      .ok (word :: others, (rest.advance ends).further finished)
  | _ => .ok ([word], rest.advance (skip_suffix rest.chars))
termination_by text.length
decreasing_by
  have shorter := rest.shorter
  have before := ends.length_le
  omega

/-- Reads a table after its opening brace. -/
def readTable (text : List Char) : Reading (List (String × String)) text :=
  readPairs '\x7d' (fun _ => readWord) text

def readValue (key : String) (text : List Char) : Reading Value text :=
  if key = "sem" then do
    let (expr, rest) ← readMeaning text
    .ok (.meaning expr, rest)
  else match text with
    | '\x7b' :: inside => do
        let (pairs, rest) ← readTable inside
        .ok (.table pairs, rest.behind '\x7b')
    | other => do
        let (words, rest) ← readWords other
        .ok (.words words, rest)

/-- Reads options in square brackets, or nothing. -/
def readOptions (text : List Char) :
    Except GrammarError (Options × { rest : List Char // rest <:+ text }) :=
  match text with
  | '[' :: inside => do
      let (options, rest) ← readPairs ']' readValue inside
      .ok (options, ⟨rest.chars, rest.suffix.trans (List.suffix_cons _ _)⟩)
  | other => .ok ([], ⟨other, List.suffix_refl _⟩)

/-- Work with options, which are removed as they are taken. -/
abbrev Taking := StateT Options (Except GrammarError)

namespace Taking

def refuse (error : NotationError) : Taking α :=
  throw (.badNotation error)

/-- Splits off the first value of a key. -/
def removeFirst (key : String) : Options → Option (Value × Options)
  | [] => none
  | (present, value) :: rest =>
      if present = key then some (value, rest)
      else (removeFirst key rest).map fun (found, others) => (found, (present, value) :: others)

def take (key : String) : Taking (Option Value) := fun options =>
  match removeFirst key options with
  | some (value, rest) => .ok (some value, rest)
  | none => .ok (none, options)

def words (key : String) : Taking (List String) := do
  match ← take key with
  | none => pure []
  | some (.words words) => pure words
  | some other => refuse (.notWords key other)

def word? (key : String) : Taking (Option String) := do
  match ← words key with
  | [] => pure none
  | [word] => pure (some word)
  | _ => refuse (.notSingle key)

def word (key : String) : Taking String := do
  match ← word? key with
  | some word => pure word
  | none => refuse (.missingOption key)

def number? (key : String) : Taking (Option Amount) := do
  match ← word? key with
  | none => pure none
  | some word =>
      match Decimal.readAmount? word with
      | some number => pure (some number)
      | none => refuse (.notNumber key word)

def number (key : String) (value : Amount) : Taking Amount := do
  return (← number? key).getD value

def flag (key : String) : Taking Bool := do
  match ← word? key with
  | none => pure false
  | some "false" => pure false
  | some "true" => pure true
  | some other => refuse (.notBoolean key other)

/-- A word that names one of several things. -/
def named? (key : String) (ofLabel? : String → Option α) (unknown : String → NotationError) :
    Taking (Option α) := do
  match ← word? key with
  | none => pure none
  | some word =>
      match ofLabel? word with
      | some value => pure (some value)
      | none => refuse (unknown word)

def penalized (penaltyKey wordsKey : String) : Taking (List (Substitution Amount)) := do
  let penalty ← number penaltyKey 0
  return (← words wordsKey).map fun literal => ⟨literal, penalty⟩

def substitutions : Taking (List (Substitution Amount)) :=
  penalized "sub-cost" "subs"

/-- Refuses what was not taken. -/
def finish (subject : String) : Taking Unit := fun options =>
  match options with
  | [] => .ok ((), [])
  | (key, _) :: _ => fail (.unknownOption key subject)

end Taking

mutual

/-- The meaning that is written, with its names looked up. Arguments are checked against what their
function allows; a name alone is taken as it is. -/
def resolve (builder : Builder Amount) : MeaningExpr → Except GrammarError (Meaning Amount)
  | .apply name [] =>
      match builder.concept? name with
      | .ok concept => .ok (.leaf concept)
      | .error cause => .error cause
  | .apply name (first :: rest) =>
      match builder.concept? name with
      | .error cause => .error cause
      | .ok concept =>
          match resolveAll builder (first :: rest) with
          | .error cause => .error cause
          | .ok args =>
              match Meaning.application? concept args with
              | some meaning => .ok meaning
              | none => .error (.malformedRule name .badArity)

def resolveAll (builder : Builder Amount) :
    List MeaningExpr → Except GrammarError (List (Meaning Amount))
  | [] => .ok []
  | first :: rest =>
      match resolve builder first with
      | .error cause => .error cause
      | .ok meaning =>
          match resolveAll builder rest with
          | .error cause => .error cause
          | .ok meanings => .ok (meaning :: meanings)

end

def Taking.meaning? (builder : Builder Amount) : Taking (Option (Meaning Amount)) := do
  match ← take "sem" with
  | none => pure none
  | some (.meaning expr) => some <$> StateT.lift (resolve builder expr)
  | some other => refuse (.notMeaning other)

/-- Sets the inflection that a key names. -/
def setInflection? (inflections : Inflections) (key : String) (word : String) :
    Option Inflections :=
  match key with
  | "one-sg" => some { inflections with firstSingular := some word }
  | "three-sg" => some { inflections with thirdSingular := some word }
  | "pl" => some { inflections with plural := some word }
  | "past" => some { inflections with past := some word }
  | "nom" => some { inflections with nominative := some word }
  | "obj" => some { inflections with objective := some word }
  | _ => none

def inflectionsOf (inflections : Inflections) :
    List (String × String) → Except GrammarError Inflections
  | [] => .ok inflections
  | (key, word) :: rest =>
      match setInflection? inflections key word with
      | some changed => inflectionsOf changed rest
      | none => fail (.unknownInflection key)

def Taking.wording? : Taking (Option Wording) := do
  match ← take "text" with
  | none => pure none
  | some (.table pairs) =>
      let inflections ← StateT.lift (inflectionsOf {} pairs)
      pure (some (.inflected inflections))
  | some (.words [word]) => pure (some (.fixed word))
  | some other => refuse (.notWording other)

end QueryGrammar.Notation
