import QueryGrammar.Data.Ordered
import QueryGrammar.Table.Basic

namespace QueryGrammar

/-! The automaton of a grammar.

A state is a set of items, rules with a position up to which they have been recognized.  It is
known by its kernel, the items it was entered with, in ascending order; the other items are the
beginnings of the rules on symbols that may come next.
-/

/-- A rule and a position in it. The rule `none` stands for the whole input: it has the start
symbol alone on its right. -/
structure Item where
  rule : Option Nat
  position : Nat
deriving DecidableEq, Repr

namespace Item

def orderOfRules : Option Nat → Option Nat → Ordering
  | none, none => .eq
  | none, some _ => .lt
  | some _, none => .gt
  | some rule, some other => compare rule other

/-- By rule, then by position. -/
def order (item other : Item) : Ordering :=
  (orderOfRules item.rule other.rule).then (compare item.position other.position)

def advance (item : Item) : Item :=
  { item with position := item.position + 1 }

end Item

abbrev Kernel := List Item

namespace Automaton

/-- What the automaton needs of a grammar: its start, the right side of every rule, and the rules
with symbols on the right of every symbol. -/
structure Skeleton where
  start : Nat
  slots : Array (List Nat)
  expansions : Array (List Nat)

namespace Skeleton

def ofRules {κ : Type} (start symbolCount : Nat) (rules : Array (IndexedRule κ)) : Skeleton where
  start
  slots := rules.map IndexedRule.slots
  expansions := (Array.range symbolCount).map fun symbol =>
    (List.range rules.size).filter fun id =>
      match rules[id]? with
      | some rule => rule.symbol == symbol && !rule.rule.isLiteral
      | none => false

def slotsOf (skeleton : Skeleton) (item : Item) : List Nat :=
  match item.rule with
  | none => [skeleton.start]
  | some rule => (skeleton.slots[rule]?).getD []

/-- The symbol after the position of an item. -/
def next? (skeleton : Skeleton) (item : Item) : Option Nat :=
  (skeleton.slotsOf item)[item.position]?

/-- The beginnings of the rules on a symbol. -/
def beginnings (skeleton : Skeleton) (symbol : Nat) : List Item :=
  ((skeleton.expansions[symbol]?).getD []).map fun rule => ⟨some rule, 0⟩

/-- How many items there are. -/
def itemCount (skeleton : Skeleton) : Nat :=
  skeleton.slots.toList.flatten.length + skeleton.slots.size + 2

end Skeleton

/-- What the items of a state amount to. -/
structure Outline where
  reductions : List Nat
  accepts : Bool
  /-- Symbols that may come next and the kernels they lead to, in the order in which they are
  met. -/
  moves : List (Nat × Kernel)

def Outline.empty : Outline := ⟨[], false, []⟩

/-- Adds an item to the kernel of a symbol. -/
def addMove (symbol : Nat) (item : Item) : List (Nat × Kernel) → List (Nat × Kernel)
  | [] => [(symbol, [item])]
  | (present, kernel) :: rest =>
      if present = symbol then (present, insertOrdered Item.order item kernel) :: rest
      else (present, kernel) :: addMove symbol item rest

/-- Takes one item up after another. The first time a symbol may come next, the beginnings of its
rules join the items. -/
def gather (skeleton : Skeleton) : Nat → List Item → List Nat → Outline → Outline
  | 0, _, _, outline => outline
  | _ + 1, [], _, outline => outline
  | fuel + 1, item :: rest, closed, outline =>
      match skeleton.next? item with
      | none =>
          match item.rule with
          | none => gather skeleton fuel rest closed { outline with accepts := true }
          | some rule =>
              gather skeleton fuel rest closed
                { outline with reductions := outline.reductions ++ [rule] }
      | some symbol =>
          let outline := { outline with moves := addMove symbol item.advance outline.moves }
          if closed.contains symbol then gather skeleton fuel rest closed outline
          else gather skeleton fuel (rest ++ skeleton.beginnings symbol) (symbol :: closed) outline

/-- A symbol is closed once, so an item joins at most once. -/
def outline (skeleton : Skeleton) (kernel : Kernel) : Outline :=
  gather skeleton (kernel.length + skeleton.slots.size + 1) kernel [] .empty

/-- The number of a kernel, which is new if it was not met before. -/
def number (kernels : Array Kernel) (kernel : Kernel) : Nat × Array Kernel :=
  match kernels.toList.findIdx? (· == kernel) with
  | some id => (id, kernels)
  | none => (kernels.size, kernels.push kernel)

def numberMoves (kernels : Array Kernel) : List (Nat × Kernel) → List (Nat × Nat) × Array Kernel
  | [] => ([], kernels)
  | (symbol, kernel) :: rest =>
      let (target, kernels) := number kernels kernel
      let (shifts, kernels) := numberMoves kernels rest
      ((symbol, target) :: shifts, kernels)

def orderOfShifts (shift other : Nat × Nat) : Ordering :=
  (compare shift.1 other.1).then (compare shift.2 other.2)

/-- Makes states of the kernels in order, while new ones are met. -/
def grow (skeleton : Skeleton) : Nat → Array State → Array Kernel → Array State
  | 0, states, _ => states
  | fuel + 1, states, kernels =>
      match kernels[states.size]? with
      | none => states
      | some kernel =>
          let outline := outline skeleton kernel
          let (shifts, kernels) := numberMoves kernels outline.moves
          let state : State := {
            reductions := ordered compare outline.reductions
            shifts := (ordered orderOfShifts shifts).toArray
            accepts := outline.accepts }
          grow skeleton fuel (states.push state) kernels

/-- Kernels are sets of items, which bounds the number of states. -/
def states (skeleton : Skeleton) : Array State :=
  grow skeleton (Nat.pow 2 skeleton.itemCount + 1) #[] #[[⟨none, 0⟩]]

end Automaton

end QueryGrammar
