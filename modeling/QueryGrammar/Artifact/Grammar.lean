import QueryGrammar.Artifact.Error
import QueryGrammar.Artifact.Rule
import QueryGrammar.Grammar.Validity
import QueryGrammar.Json.Writer

namespace QueryGrammar

/-! Grammars as artifacts. A grammar that is read is checked as one that is built. -/

open Json

def dictionaryToJson (encode : α → Json) (dictionary : Dictionary α) : Json :=
  .record (dictionary.entries.map fun (key, value) => (key, encode value))

namespace Grammar

def toJson (grammar : Grammar Amount) : Json :=
  .record [
    ("start", .text grammar.start),
    ("rules", dictionaryToJson (.ofList Rule.toJson) grammar.rules),
    ("semantics", dictionaryToJson Concept.toJson grammar.concepts)]

def artifact (grammar : Grammar Amount) : String :=
  grammar.toJson.pretty

def decoder : Decoder (Grammar Amount) :=
  Decoder.record ["start", "rules", "semantics"] fun
    | levels, [start, rules, concepts] => do
        let start ← Decoder.required Decoder.text levels start
        let rules ← Decoder.required (Decoder.dictionary (Decoder.list Rule.decoder)) levels rules
        let concepts ← Decoder.required (Decoder.dictionary Concept.decoder) levels concepts
        some ⟨start, rules, concepts⟩
    | _, _ => none

def ofArtifact (text : String) : Except ArtifactError (Grammar Amount) :=
  match decode? decoder text with
  | none => .error .unreadable
  | some grammar =>
      match grammar.validate with
      | .ok () => .ok grammar
      | .error cause => .error (.badGrammar cause)

end Grammar

end QueryGrammar
