import QueryGrammar.Artifact.Meaning
import QueryGrammar.Rule.Basic

namespace QueryGrammar

/-! Rules and their parts as artifacts. Fields without a value are left out. -/

open Json

def Form.decoder : Decoder Form :=
  Decoder.choice Form.ofLabel?

def Form.toJson (form : Form) : Json :=
  .text form.label

def Person.decoder : Decoder Person :=
  Decoder.choice Person.ofLabel?

def Person.toJson (person : Person) : Json :=
  .text person.label

def Role.decoder : Decoder Role :=
  Decoder.choice Role.ofLabel?

def Role.toJson (role : Role) : Json :=
  .text role.label

namespace Inflections

def toJson (inflections : Inflections) : Json :=
  .record (
    Json.optional "one-sg" .text inflections.firstSingular ++
    Json.optional "three-sg" .text inflections.thirdSingular ++
    Json.optional "pl" .text inflections.plural ++
    Json.optional "past" .text inflections.past ++
    Json.optional "nom" .text inflections.nominative ++
    Json.optional "obj" .text inflections.objective)

def decoder : Decoder Inflections :=
  Decoder.record ["one-sg", "three-sg", "pl", "past", "nom", "obj"] fun
    | levels, [firstSingular, thirdSingular, plural, past, nominative, objective] => do
        let firstSingular ← Decoder.optional Decoder.text levels firstSingular
        let thirdSingular ← Decoder.optional Decoder.text levels thirdSingular
        let plural ← Decoder.optional Decoder.text levels plural
        let past ← Decoder.optional Decoder.text levels past
        let nominative ← Decoder.optional Decoder.text levels nominative
        let objective ← Decoder.optional Decoder.text levels objective
        some { firstSingular, thirdSingular, plural, past, nominative, objective }
    | _, _ => none

end Inflections

namespace Wording

def toJson : Wording → Json
  | .fixed text => .record [("literal", .text text)]
  | .inflected inflections => .record [("forms", inflections.toJson)]

def decoder : Decoder Wording :=
  Decoder.variant (fun _ => none) fun levels name content =>
    match name with
    | "literal" => (Decoder.text levels content).map .fixed
    | "forms" => (Inflections.decoder levels content).map .inflected
    | _ => none

end Wording

namespace Slot

def toJson (slot : Slot) : Json :=
  .record (("name", .text slot.symbol) :: Json.optional "form" Form.toJson slot.form)

def decoder : Decoder Slot :=
  Decoder.record ["name", "form"] fun
    | levels, [symbol, form] => do
        let symbol ← Decoder.required Decoder.text levels symbol
        let form ← Decoder.optional Form.decoder levels form
        some { symbol, form }
    | _, _ => none

end Slot

namespace Production

def toJson : Production → Json
  | .symbols slots => .record [("nonterminal", .ofList Slot.toJson slots)]
  | .literal text => .record [("terminal", .text text)]

def decoder : Decoder Production :=
  Decoder.variant (fun _ => none) fun levels name content =>
    match name with
    | "nonterminal" => (Decoder.list Slot.decoder levels content).map .symbols
    | "terminal" => (Decoder.text levels content).map .literal
    | _ => none

end Production

namespace Piece

def toJson (piece : Piece) : Json :=
  .record (("text", piece.wording.toJson) :: Json.optional "form" Form.toJson piece.form)

def decoder : Decoder Piece :=
  Decoder.record ["text", "form"] fun
    | levels, [wording, form] => do
        let wording ← Decoder.required Wording.decoder levels wording
        let form ← Decoder.optional Form.decoder levels form
        some { wording, form }
    | _, _ => none

end Piece

namespace Insertion

def toJson (insertion : Insertion Amount) : Json :=
  .record (
    [("index", .nat insertion.index), ("text", .ofList Piece.toJson insertion.text)] ++
    Json.optional "semantic" Meaning.toJson insertion.meaning ++
    Json.optional "person_number" Person.toJson insertion.person)

def decoder : Decoder (Insertion Amount) :=
  Decoder.record ["index", "text", "semantic", "person_number"] fun
    | levels, [index, text, meaning, person] => do
        let index ← Decoder.required Decoder.nat levels index
        let text ← Decoder.required (Decoder.list Piece.decoder) levels text
        let meaning ← Decoder.optional Meaning.decoder levels meaning
        let person ← Decoder.optional Person.decoder levels person
        some { index, text, meaning, person }
    | _, _ => none

end Insertion

namespace Rule

def toJson (rule : Rule Amount) : Json :=
  .record (
    [("rhs", rule.production.toJson), ("cost", .amount rule.cost)] ++
    Json.optional "insertion_cost" .amount rule.insertionCost ++
    Json.optional "transposition_cost" .amount rule.transpositionCost ++
    Json.optional "semantic" Meaning.toJson rule.meaning ++
    Json.optional "text" Wording.toJson rule.wording ++
    Json.optional "person_number" Person.toJson rule.person ++
    [("kind", rule.role.toJson), ("no_insert", .bool rule.noInsert)] ++
    Json.optional "insertion" Insertion.toJson rule.insertion ++
    [("transposed", .bool rule.transposed)])

def decoder : Decoder (Rule Amount) :=
  Decoder.record ["rhs", "cost", "insertion_cost", "transposition_cost", "semantic", "text",
      "person_number", "kind", "no_insert", "insertion", "transposed"] fun
    | levels, [production, cost, insertionCost, transpositionCost, meaning, wording, person, role,
        noInsert, insertion, transposed] => do
        let production ← Decoder.required Production.decoder levels production
        let cost ← Decoder.required Decoder.amount levels cost
        let insertionCost ← Decoder.optional Decoder.amount levels insertionCost
        let transpositionCost ← Decoder.optional Decoder.amount levels transpositionCost
        let meaning ← Decoder.optional Meaning.decoder levels meaning
        let wording ← Decoder.optional Wording.decoder levels wording
        let person ← Decoder.optional Person.decoder levels person
        let role ← Decoder.defaulted Role.decoder .plain levels role
        let noInsert ← Decoder.defaulted Decoder.bool false levels noInsert
        let insertion ← Decoder.optional Insertion.decoder levels insertion
        let transposed ← Decoder.defaulted Decoder.bool false levels transposed
        some { production, cost, insertionCost, transpositionCost, meaning, wording, person, role,
               noInsert, insertion, transposed }
    | _, _ => none

end Rule

end QueryGrammar
