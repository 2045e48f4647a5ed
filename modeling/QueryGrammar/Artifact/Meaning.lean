import QueryGrammar.Json.Decoder
import QueryGrammar.Meaning.Basic

namespace QueryGrammar

/-! Concepts and meanings as artifacts. -/

open Json

namespace ConceptKind

def toJson : ConceptKind → Json
  | .argument => .text "Argument"
  | .function fewest most exclusive people =>
      .record [("Function", .record [
        ("min_params", .nat fewest),
        ("max_params", .nat most),
        ("forbids_multiple", .bool exclusive),
        ("people", .bool people)])]

def functionDecoder : Decoder ConceptKind :=
  Decoder.record ["min_params", "max_params", "forbids_multiple", "people"] fun
    | levels, [fewest, most, exclusive, people] => do
        let fewest ← Decoder.required Decoder.nat levels fewest
        let most ← Decoder.required Decoder.nat levels most
        let exclusive ← Decoder.required Decoder.bool levels exclusive
        let people ← Decoder.defaulted Decoder.bool false levels people
        some (.function fewest most exclusive people)
    | _, _ => none

def decoder : Decoder ConceptKind :=
  Decoder.variant (fun name => if name = "Argument" then some .argument else none)
    fun levels name content =>
      if name = "Function" then functionDecoder levels content else none

end ConceptKind

namespace Concept

def toJson (concept : Concept Amount) : Json :=
  .record [
    ("name", .text concept.name),
    ("cost", .amount concept.cost),
    ("kind", concept.kind.toJson)]

def decoder : Decoder (Concept Amount) :=
  Decoder.record ["name", "cost", "kind"] fun
    | levels, [name, cost, kind] => do
        let name ← Decoder.required Decoder.text levels name
        let cost ← Decoder.required Decoder.amount levels cost
        let kind ← Decoder.required ConceptKind.decoder levels kind
        some ⟨name, cost, kind⟩
    | _, _ => none

end Concept

namespace Meaning

mutual

def toJson : Meaning Amount → Json
  | .apply concept args => .record [("def", concept.toJson), ("args", .array (allToJson args))]

def allToJson : List (Meaning Amount) → List Json
  | [] => []
  | first :: rest => first.toJson :: allToJson rest

end

/-- A meaning takes a level for itself and one for the list of its arguments. -/
def decoder : Decoder (Meaning Amount)
  | levels + 2, json =>
      match Decoder.fields ["def", "args"] json with
      | some [some concept, some (.array args)] =>
          match Concept.decoder (levels + 1) concept, Decoder.all (decoder levels) args with
          | some concept, some args => some (.apply concept args)
          | _, _ => none
      | _ => none
  | _, _ => none

end Meaning

end QueryGrammar
