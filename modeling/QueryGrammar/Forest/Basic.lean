import QueryGrammar.Fault
import QueryGrammar.Input.Lattice

namespace QueryGrammar

/-! Packed forests: every derivation of a symbol over a stretch of the input is an alternative of
one node. -/

inductive Alternative where
  /-- A rule on a literal over a match. -/
  | terminal (rule found : Nat)
  /-- A rule on symbols over nodes, in the order of the input. -/
  | branch (rule : Nat) (children : List Nat)
deriving DecidableEq, Repr

/-- All derivations of a symbol over the tokens from `start` up to `stop`. -/
structure Node where
  symbol : Nat
  start : Nat
  stop : Nat
  alternatives : List Alternative
deriving DecidableEq, Repr

/-- The numbers of nodes by what they are for: a symbol, a start and a stop. -/
abbrev Forest.Index := List ((Nat × Nat × Nat) × Nat)

structure Forest where
  nodes : Array Node
  index : Forest.Index
  found : Array Match
  root : Option Nat

namespace Alternative

def rule : Alternative → Nat
  | .terminal rule _ => rule
  | .branch rule _ => rule

def children : Alternative → List Nat
  | .terminal _ _ => []
  | .branch _ children => children

/-- By rule, then by children. -/
def isBefore (alternative other : Alternative) : Bool :=
  (compare alternative.rule other.rule).then (compare alternative.children other.children) != .gt

end Alternative

def Node.adding (alternative : Alternative) (node : Node) : Node :=
  { node with alternatives := node.alternatives ++ [alternative] }

namespace Forest

def ofMatches (found : Array Match) : Forest :=
  ⟨#[], [], found, none⟩

def nodeAt (forest : Forest) (id : Nat) : Except Fault Node :=
  Fault.lookUp .noNode forest.nodes id

def matchAt (forest : Forest) (id : Nat) : Except Fault Match :=
  Fault.lookUp .noMatch forest.found id

/-- The node of a symbol over a stretch, by the index. -/
def find? (forest : Forest) (symbol start stop : Nat) : Option Nat :=
  forest.index.lookup (symbol, start, stop)

/-- Adds a node that has no alternatives yet, and its entry of the index. -/
def addNode (forest : Forest) (symbol start stop : Nat) : Forest :=
  { forest with
    nodes := forest.nodes.push ⟨symbol, start, stop, []⟩
    index := ((symbol, start, stop), forest.nodes.size) :: forest.index }

/-- The node of a symbol over a stretch, which is added if the index has none. -/
def ensure (forest : Forest) (symbol start stop : Nat) : Nat × Forest :=
  match forest.find? symbol start stop with
  | some id => (id, forest)
  | none => (forest.nodes.size, forest.addNode symbol start stop)

def put (forest : Forest) (id : Nat) (node : Node) : Forest :=
  { forest with nodes := forest.nodes.setIfInBounds id node }

/-- Adds an alternative at the end unless the node has it. Tells whether it is new. -/
def addAlternative (forest : Forest) (id : Nat) (alternative : Alternative) :
    Except Fault (Bool × Forest) := do
  let node ← forest.nodeAt id
  if node.alternatives.contains alternative then .ok (false, forest)
  else .ok (true, forest.put id (node.adding alternative))

def alternativeCount (forest : Forest) : Nat :=
  (forest.nodes.toList.flatMap Node.alternatives).length

/-- Puts the alternatives of every node into the order of their rules. -/
def sorted (forest : Forest) : Forest :=
  { forest with nodes := forest.nodes.map fun node =>
      { node with alternatives := node.alternatives.mergeSort Alternative.isBefore } }

end Forest

end QueryGrammar
