import QueryGrammar.Decimal.Fixed
import QueryGrammar.Data.Dictionary
import QueryGrammar.Fault
import QueryGrammar.Rule.Basic

namespace QueryGrammar

/-! Compiled grammars: rules with their symbols numbered, an index of literals, and the states of an
automaton that recognizes the productions. -/

structure IndexedRule (κ : Type) where
  symbol : Nat
  /-- The symbols on the right. A rule on a literal has none. -/
  slots : List Nat
  rule : Rule κ
deriving BEq

structure State where
  /-- Rules completed here, ascending. -/
  reductions : List Nat
  /-- Symbols and the states they lead to, ascending by symbol. -/
  shifts : Array (Nat × Nat)
  /-- Whether the start symbol has been recognized here. -/
  accepts : Bool
deriving DecidableEq, Repr

structure Table (κ : Type) where
  start : Nat
  symbols : Array String
  rules : Array (IndexedRule κ)
  /-- Normalized literals, each with the rules that produce it. -/
  literals : Dictionary (List Nat)
  states : Array State
  /-- The number of words in the longest literal. -/
  longestLiteral : Nat
deriving BEq

/-- What a table refers to that it does not have. -/
inductive TableFlaw where
  | noStart
  | unknownSymbol (rule : Nat)
  | unknownReduction (state : Nat)
  | unknownShift (state : Nat)
  | unknownLiteralRule

def TableFlaw.message : TableFlaw → String
  | noStart => "missing start symbol or initial state"
  | unknownSymbol rule => "rule " ++ rule.repr ++ " refers to an unknown symbol"
  | unknownReduction state => "state " ++ state.repr ++ " reduces an unknown rule"
  | unknownShift state => "state " ++ state.repr ++ " shifts out of range"
  | unknownLiteralRule => "literal refers to an unknown rule"

namespace State

/-- Halves the range in which an entry for `symbol` can be, keeping the later half unless it starts
beyond the symbol. -/
def narrow (shifts : Array (Nat × Nat)) (symbol : Nat) : Nat → Nat → Nat → Nat
  | 0, base, _ => base
  | fuel + 1, base, size =>
      if size ≤ 1 then base
      else
        let half := size / 2
        let middle := base + half
        let beyond : Bool := match shifts[middle]? with
          | some (key, _) => decide (symbol < key)
          | none => false
        narrow shifts symbol fuel (if beyond then base else middle) (size - half)

/-- The state to which a symbol leads, found by binary search. -/
def target? (state : State) (symbol : Nat) : Option Nat :=
  match state.shifts[narrow state.shifts symbol state.shifts.size 0 state.shifts.size]? with
  | some (key, target) => if key = symbol then some target else none
  | none => none

end State

namespace Table

variable {κ : Type}

def symbolId? (table : Table κ) (name : String) : Option Nat :=
  table.symbols.toList.findIdx? (· == name)

def symbolName (table : Table κ) (id : Nat) : Except Fault String :=
  Fault.lookUp .noSymbol table.symbols id

def ruleAt (table : Table κ) (id : Nat) : Except Fault (IndexedRule κ) :=
  Fault.lookUp .noRule table.rules id

def stateAt (table : Table κ) (id : Nat) : Except Fault State :=
  Fault.lookUp .noState table.states id

def shift (table : Table κ) (state symbol : Nat) : Except Fault (Option Nat) := do
  let state ← table.stateAt state
  .ok (state.target? symbol)

/-- The rules that produce a normalized literal. -/
def literalRules (table : Table κ) (literal : String) : List Nat :=
  (table.literals.get? literal).getD []

def costOf (table : Table κ) (rule : Nat) : Except Fault κ := do
  let found ← table.ruleAt rule
  .ok found.rule.cost

/-- Goes through values with their positions, from `index` on. -/
def findFlaw? (flaw? : Nat → α → Option TableFlaw) (index : Nat) : List α → Option TableFlaw
  | [] => none
  | value :: rest =>
      match flaw? index value with
      | some flaw => some flaw
      | none => findFlaw? flaw? (index + 1) rest

def ruleFlaw? (table : Table κ) (id : Nat) (rule : IndexedRule κ) : Option TableFlaw :=
  if (rule.symbol :: rule.slots).all (· < table.symbols.size) then none
  else some (.unknownSymbol id)

def stateFlaw? (table : Table κ) (id : Nat) (state : State) : Option TableFlaw :=
  if !state.reductions.all (· < table.rules.size) then some (.unknownReduction id)
  else if !state.shifts.toList.all fun (symbol, target) =>
      symbol < table.symbols.size && target < table.states.size then some (.unknownShift id)
  else none

/-- The first reference that a table cannot follow. -/
def flaw? (table : Table κ) : Option TableFlaw :=
  if table.symbols.size ≤ table.start || table.states.isEmpty then some .noStart
  else
    findFlaw? table.ruleFlaw? 0 table.rules.toList <|>
    findFlaw? table.stateFlaw? 0 table.states.toList <|>
    if table.literals.values.flatten.all (· < table.rules.size) then none
    else some .unknownLiteralRule

def ruleText (table : Table κ) (id : Nat) : Except Fault String := do
  let rule ← table.ruleAt id
  let symbol ← table.symbolName rule.symbol
  .ok (symbol ++ " -> " ++ rule.rule.text)

def shiftText (table : Table κ) (shift : Nat × Nat) : Except Fault String := do
  let symbol ← table.symbolName shift.1
  .ok ("  shift " ++ symbol ++ " => " ++ shift.2.repr ++ "\n")

def stateText (table : Table κ) (id : Nat) (state : State) : Except Fault String := do
  let reductions ← state.reductions.mapM table.ruleText
  let shifts ← state.shifts.toList.mapM table.shiftText
  .ok ("State " ++ id.repr ++ ":" ++ (if state.accepts then " accept" else "") ++ "\n" ++
    String.join (reductions.map fun rule => "  reduce " ++ rule ++ "\n") ++ String.join shifts)

def text (table : Table κ) : Except Fault String := do
  let start ← table.symbolName table.start
  let states ← table.states.toList.zipIdx.mapM fun (state, id) => table.stateText id state
  .ok ("//** start: " ++ start ++ "\n//** states: " ++ table.states.size.repr ++ "\n" ++
    String.join states)

end Table

end QueryGrammar
