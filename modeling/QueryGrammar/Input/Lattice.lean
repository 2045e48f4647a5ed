import QueryGrammar.Input.Gazetteer
import QueryGrammar.Table.Basic

namespace QueryGrammar

/-! Queries as lattices: their tokens, and what every run of tokens may be.

Literals and entity names are looked up over every run that is short enough for one of them.
Matches may overlap, and all of them are kept.
-/

structure Token where
  /-- The token as typed. -/
  text : String
  normalized : String
deriving DecidableEq, Repr

/-- A literal over the tokens from `start` up to `stop`. -/
structure Match where
  literal : String
  start : Nat
  stop : Nat
  /-- The tokens as typed. -/
  text : String
  entity : Option Entity
deriving DecidableEq, Repr

structure Lattice where
  tokens : List Token
  /-- Ascending by start, then by stop. -/
  found : Array Match

inductive ParseError where
  | emptyInput
  | noDerivation (query : String)
deriving DecidableEq, Repr

def ParseError.message : ParseError → String
  | emptyInput => "empty input"
  | noDerivation query => "no derivation found for \"" ++ query ++ "\""

namespace Lattice

variable {κ : Type}

def tokensOf (query : String) : List Token :=
  (Text.wordsOf query).map fun word => ⟨word, Text.lower word⟩

/-- The runs of up to `longest` among `count` tokens, by start, then by stop. -/
def runs (count longest : Nat) : List (Nat × Nat) :=
  (List.range count).flatMap fun start =>
    (List.range (min longest (count - start))).map fun length => (start, start + length + 1)

def keyOf (run : List Token) : String :=
  Text.spaced (run.map Token.normalized)

def textOf (run : List Token) : String :=
  Text.spaced (run.map Token.text)

/-- The literal that stands for the entities of a category. -/
def categoryLiteral (category : String) : String :=
  "\x7b" ++ Text.normalize category ++ "\x7d"

def isLiteral (table : Table κ) (literal : String) : Bool :=
  !(table.literalRules literal).isEmpty

/-- What a run may be: a literal, then entities by name. -/
def matchesOver (table : Table κ) (gazetteer : Gazetteer) (tokens : List Token)
    (span : Nat × Nat) : List Match :=
  let run := (tokens.take span.2).drop span.1
  let key := keyOf run
  let plain :=
    if isLiteral table key then [⟨key, span.1, span.2, textOf run, none⟩] else []
  let named := (gazetteer.lookUp key).filterMap fun (category, entity) =>
    let literal := categoryLiteral category
    if isLiteral table literal then some ⟨literal, span.1, span.2, textOf run, some entity⟩
    else none
  plain ++ named

def ofQuery (table : Table κ) (gazetteer : Gazetteer) (query : String) :
    Except ParseError Lattice :=
  match tokensOf query with
  | [] => .error .emptyInput
  | first :: rest =>
      let tokens := first :: rest
      let longest := max table.longestLiteral gazetteer.longestName
      .ok {
        tokens
        found := ((runs tokens.length longest).flatMap
          (matchesOver table gazetteer tokens)).toArray }

/-- Whether the longest run from every token would end at a position, which is a word of 64 bits.
The sum is taken before it is cut down to the number of tokens. -/
def fits (table : Table κ) (gazetteer : Gazetteer) (query : String) : Bool :=
  let longest := max table.longestLiteral gazetteer.longestName
  (List.range (tokensOf query).length).all fun start => start + longest < UInt64.size

/-- Reads a query with positions that are words. -/
def read (table : Table κ) (gazetteer : Gazetteer) (query : String) :
    Except Fault (Except ParseError Lattice) :=
  if fits table gazetteer query then .ok (ofQuery table gazetteer query) else .error .overflow

def length (lattice : Lattice) : Nat :=
  lattice.tokens.length

end Lattice

end QueryGrammar
