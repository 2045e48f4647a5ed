import QueryGrammar.Artifact.Grammar
import QueryGrammar.Table.Basic

namespace QueryGrammar

/-! Tables as artifacts. A table that is read is checked for references it cannot follow. -/

open Json

namespace IndexedRule

def toJson (rule : IndexedRule Amount) : Json :=
  .record [
    ("lhs", .nat rule.symbol),
    ("rhs", .ofList .nat rule.slots),
    ("rule", rule.rule.toJson)]

def decoder : Decoder (IndexedRule Amount) :=
  Decoder.record ["lhs", "rhs", "rule"] fun
    | levels, [symbol, slots, rule] => do
        let symbol ← Decoder.required Decoder.nat levels symbol
        let slots ← Decoder.required (Decoder.list Decoder.nat) levels slots
        let rule ← Decoder.required Rule.decoder levels rule
        some ⟨symbol, slots, rule⟩
    | _, _ => none

end IndexedRule

namespace State

def shiftToJson (shift : Nat × Nat) : Json :=
  .array [.nat shift.1, .nat shift.2]

def shiftDecoder : Decoder (Nat × Nat)
  | levels + 1, .array [symbol, target] => do
      let symbol ← Decoder.nat levels symbol
      let target ← Decoder.nat levels target
      some (symbol, target)
  | _, _ => none

def toJson (state : State) : Json :=
  .record [
    ("reductions", .ofList .nat state.reductions),
    ("shifts", .ofList shiftToJson state.shifts.toList),
    ("is_final", .bool state.accepts)]

def decoder : Decoder State :=
  Decoder.record ["reductions", "shifts", "is_final"] fun
    | levels, [reductions, shifts, accepts] => do
        let reductions ← Decoder.required (Decoder.list Decoder.nat) levels reductions
        let shifts ← Decoder.required (Decoder.list shiftDecoder) levels shifts
        let accepts ← Decoder.required Decoder.bool levels accepts
        some ⟨reductions, shifts.toArray, accepts⟩
    | _, _ => none

end State

namespace Table

def toJson (table : Table Amount) : Json :=
  .record [
    ("start", .nat table.start),
    ("symbols", .ofList .text table.symbols.toList),
    ("rules", .ofList IndexedRule.toJson table.rules.toList),
    ("literals", dictionaryToJson (.ofList .nat) table.literals),
    ("states", .ofList State.toJson table.states.toList),
    ("max_literal_words", .nat table.longestLiteral)]

def artifact (table : Table Amount) : String :=
  table.toJson.compact

def decoder : Decoder (Table Amount) :=
  Decoder.record ["start", "symbols", "rules", "literals", "states", "max_literal_words"] fun
    | levels, [start, symbols, rules, literals, states, longestLiteral] => do
        let start ← Decoder.required Decoder.nat levels start
        let symbols ← Decoder.required (Decoder.list Decoder.text) levels symbols
        let rules ← Decoder.required (Decoder.list IndexedRule.decoder) levels rules
        let literals ←
          Decoder.required (Decoder.dictionary (Decoder.list Decoder.nat)) levels literals
        let states ← Decoder.required (Decoder.list State.decoder) levels states
        let longestLiteral ← Decoder.required Decoder.nat levels longestLiteral
        some {
          start, symbols := symbols.toArray, rules := rules.toArray, literals
          states := states.toArray, longestLiteral }
    | _, _ => none

def ofArtifact (text : String) : Except ArtifactError (Table Amount) :=
  match decode? decoder text with
  | none => .error .unreadable
  | some table =>
      match table.flaw? with
      | none => .ok table
      | some flaw => .error (.badTable flaw)

end Table

end QueryGrammar
