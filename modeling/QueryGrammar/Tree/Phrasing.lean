import QueryGrammar.Tree.Basic

namespace QueryGrammar.Tree

/-! The words that a derivation displays.

A form that a rule selects for a child holds in that child, unless a form is selected further
inside.  The person of a rule holds from there on in the order of display, and once more after the
rule's own children, so that it wins over theirs.  Swapped rules are displayed in the order of their
base, and inserted text on the side where it was left out.
-/

variable {κ : Type}

/-- Words so far need no more than the person in force where they end. -/
abbrev Phrase := List String × Option Person

def wordOf : Option String → List String
  | none => []
  | some text => if text.isEmpty then [] else [text]

def resolve (wording : Option Wording) (form : Option Form) (person : Option Person) :
    List String :=
  wordOf (wording.bind fun wording => wording.resolve form person)

/-- The words of an insertion. -/
def insertionPhrase (insertion : Insertion κ) (form : Option Form) (person : Option Person) :
    Phrase :=
  let person := insertion.person <|> person
  (insertion.text.flatMap fun piece => resolve (some piece.wording) (piece.form <|> form) person,
    person)

/-- The words of a rule on a literal: of an entity as typed, else as the rule displays it. -/
def literalPhrase (forest : Forest) (rule : Rule κ) (children : List Tree)
    (form : Option Form) (person : Option Person) : Except Fault (List String) :=
  if rule.role = .placeholder then
    match children with
    | .leaf found _ :: _ => do
        let found ← forest.matchAt found
        .ok (wordOf (some found.text))
    | _ => .ok []
  else .ok (resolve rule.display form person)

mutual

def phrase (table : Table κ) (forest : Forest) :
    Tree → Option Form → Option Person → Except Fault Phrase
  | .leaf _ _, _, person => .ok ([], person)
  | .branch _ id _ children, form, person => do
      let rule := (← table.ruleAt id).rule
      let person := rule.person <|> person
      if rule.isLiteral then
        let words ← literalPhrase forest rule children form person
        .ok (words, person)
      else
        let (words, person) ← match rule.insertion with
          | none => phraseAll table forest rule form 0 children person
          | some insertion =>
              if insertion.index = 0 then do
                let (inserted, person) := insertionPhrase insertion form person
                let (words, person) ← phraseAll table forest rule form 0 children person
                .ok (inserted ++ words, person)
              else do
                let (words, person) ← phraseAll table forest rule form 0 children person
                let (inserted, person) := insertionPhrase insertion form person
                .ok (words ++ inserted, person)
        .ok (words, rule.person <|> person)

/-- The words of children from position `index` on, the last child first in swapped rules. -/
def phraseAll (table : Table κ) (forest : Forest) (rule : Rule κ) (form : Option Form)
    (index : Nat) : List Tree → Option Person → Except Fault Phrase
  | [], person => .ok ([], person)
  | first :: rest, person =>
      if rule.transposed then do
        let (later, person) ← phraseAll table forest rule form (index + 1) rest person
        let (words, person) ← phrase table forest first (rule.formAt index <|> form) person
        .ok (later ++ words, person)
      else do
        let (words, person) ← phrase table forest first (rule.formAt index <|> form) person
        let (later, person) ← phraseAll table forest rule form (index + 1) rest person
        .ok (words ++ later, person)

end

/-- The text that a derivation displays. -/
def phrasing (table : Table κ) (forest : Forest) (tree : Tree) : Except Fault String := do
  let (words, _) ← tree.phrase table forest none none
  .ok (Text.spaced words)

end QueryGrammar.Tree
