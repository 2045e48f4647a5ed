import QueryGrammar.Forest.Basic

namespace QueryGrammar

/-! Recognition of a lattice with all stacks of the automaton at once.

A vertex is a state reached at a position; links lead back to the vertices from which it was
reached, each labelled with the forest node in between.  A new link waits at its position until the
rules completed in its vertex have been followed back along it.  Reductions at a position only add
links there, and a match only adds links further on.
-/

structure Vertex where
  state : Nat
  position : Nat
deriving DecidableEq, Repr

structure Link where
  node : Nat
  source : Vertex
deriving DecidableEq, Repr

/-- All vertices at one position. -/
structure Column where
  /-- The links of every state, in the order in which they were made; states ascending. -/
  links : List (Nat × List Link)
  /-- Links whose reductions have not been followed, the latest first. -/
  waiting : List (Nat × Link)

/-- The forest so far, and a column for every position. -/
structure Stack where
  forest : Forest
  columns : Array Column

namespace Column

def empty : Column := ⟨[], []⟩

def linksOf? (column : Column) (state : Nat) : Option (List Link) :=
  (column.links.find? (·.1 == state)).map (·.2)

/-- Adds a link at the end of those of a state. -/
def addLink (state : Nat) (link : Link) : List (Nat × List Link) → List (Nat × List Link)
  | [] => [(state, [link])]
  | (present, links) :: rest =>
      if state < present then (state, [link]) :: (present, links) :: rest
      else if present < state then (present, links) :: addLink state link rest
      else (present, links ++ [link]) :: rest

/-- Makes a link, which then waits, unless it was made before. -/
def link (column : Column) (state : Nat) (link : Link) : Column :=
  if ((column.linksOf? state).getD []).contains link then column
  else { links := addLink state link column.links, waiting := (state, link) :: column.waiting }

def states (column : Column) : List Nat :=
  column.links.map (·.1)

end Column

namespace Stack

variable {κ : Type}

/-- Nothing recognized: the initial state at the first position. -/
def initial (lattice : Lattice) : Stack where
  forest := .ofMatches lattice.found
  columns := (Array.replicate (lattice.length + 1) Column.empty).setIfInBounds 0
    { Column.empty with links := [(0, [])] }

def columnAt (stack : Stack) (position : Nat) : Except Fault Column :=
  Fault.lookUp .noPosition stack.columns position

def setColumn (stack : Stack) (position : Nat) (column : Column) : Stack :=
  { stack with columns := stack.columns.setIfInBounds position column }

def linksOf (stack : Stack) (vertex : Vertex) : Except Fault (List Link) := do
  let column ← stack.columnAt vertex.position
  match column.linksOf? vertex.state with
  | some links => .ok links
  | none => .error (.noVertex vertex.state vertex.position)

/-- Moves from a vertex over a node, if the automaton allows it. -/
def advance (table : Table κ) (stack : Stack) (source : Vertex) (id : Nat) :
    Except Fault Stack := do
  let node ← stack.forest.nodeAt id
  match ← table.shift source.state node.symbol with
  | none => .ok stack
  | some target =>
      let column ← stack.columnAt node.stop
      .ok (stack.setColumn node.stop (column.link target ⟨id, source⟩))

/-- The ways back along a link over as many nodes as a rule has symbols: where they start, and
their nodes in the order of the input. -/
def paths (stack : Stack) (length : Nat) (link : Link) :
    Except Fault (List (Vertex × List Nat)) := do
  match length with
  | 1 => .ok [(link.source, [link.node])]
  | 2 =>
      let links ← stack.linksOf link.source
      .ok (links.map fun before => (before.source, [before.node, link.node]))
  | _ => .ok []

/-- Adds what a rule derives over each path, and moves over it from where the path starts. -/
def completePaths (table : Table κ) (rule symbol position : Nat) :
    List (Vertex × List Nat) → Stack → Except Fault Stack
  | [], stack => .ok stack
  | (origin, children) :: rest, stack => do
      let (id, forest) := stack.forest.ensure symbol origin.position position
      let (_, forest) ← forest.addAlternative id (.branch rule children)
      let stack ← advance table { stack with forest } origin id
      completePaths table rule symbol position rest stack

/-- Follows rules back along a link. -/
def completeRules (table : Table κ) (position : Nat) (link : Link) :
    List Nat → Stack → Except Fault Stack
  | [], stack => .ok stack
  | id :: rest, stack => do
      let rule ← table.ruleAt id
      let paths ← stack.paths rule.slots.length link
      let stack ← completePaths table id rule.symbol position paths stack
      completeRules table position link rest stack

/-- Follows every rule completed in a vertex back along one of its links. -/
def reduce (table : Table κ) (stack : Stack) (vertex : Vertex) (link : Link) :
    Except Fault Stack := do
  let state ← table.stateAt vertex.state
  completeRules table vertex.position link state.reductions stack

/-- Takes waiting links, the latest first, until none is left. -/
def drain (table : Table κ) (position : Nat) : Nat → Stack → Except Fault Stack
  | 0, stack => .ok stack
  | fuel + 1, stack => do
      let column ← stack.columnAt position
      match column.waiting with
      | [] => .ok stack
      | (state, link) :: waiting =>
          let stack := stack.setColumn position { column with waiting }
          let stack ← reduce table stack ⟨state, position⟩ link
          drain table position fuel stack

/-- A link is told apart by its node and its source, and waits once. -/
def drainBound (table : Table κ) (position : Nat) : Nat :=
  table.symbols.size * (position + 1) * (table.states.size * (position + 1)) + 1

/-- Adds the nodes of rules over a match, and collects them. -/
def plantRules (table : Table κ) (found : Nat) (start stop : Nat) :
    List Nat → Forest → List Nat → Except Fault (Forest × List Nat)
  | [], forest, nodes => .ok (forest, nodes)
  | id :: rest, forest, nodes => do
      let rule ← table.ruleAt id
      let (node, forest) := forest.ensure rule.symbol start stop
      let (_, forest) ← forest.addAlternative node (.terminal id found)
      plantRules table found start stop rest forest
        (if nodes.contains node then nodes else nodes ++ [node])

/-- Adds the nodes of every match that starts at a position. -/
def plant (table : Table κ) (position : Nat) :
    List (Match × Nat) → Forest → List Nat → Except Fault (Forest × List Nat)
  | [], forest, nodes => .ok (forest, nodes)
  | (found, id) :: rest, forest, nodes => do
      if found.start = position then
        let (forest, nodes) ← plantRules table id position found.stop
          (table.literalRules found.literal) forest nodes
        plant table position rest forest nodes
      else plant table position rest forest nodes

def advanceAll (table : Table κ) (source : Vertex) : List Nat → Stack → Except Fault Stack
  | [], stack => .ok stack
  | id :: rest, stack => do
      let stack ← advance table stack source id
      advanceAll table source rest stack

def advanceFrom (table : Table κ) (position : Nat) (nodes : List Nat) :
    List Nat → Stack → Except Fault Stack
  | [], stack => .ok stack
  | state :: rest, stack => do
      let stack ← advanceAll table ⟨state, position⟩ nodes stack
      advanceFrom table position nodes rest stack

/-- Moves from every vertex at a position over every match that starts there. -/
def shift (table : Table κ) (position : Nat) (stack : Stack) : Except Fault Stack := do
  let column ← stack.columnAt position
  let found := stack.forest.found.toList.zipIdx
  let (forest, nodes) ← plant table position found stack.forest []
  advanceFrom table position nodes column.states { stack with forest }

/-- Goes on from a position to the last one, `left` positions away. -/
def run (table : Table κ) : Nat → Nat → Stack → Except Fault Stack
  | position, 0, stack => drain table position (drainBound table position) stack
  | position, left + 1, stack => do
      let stack ← drain table position (drainBound table position) stack
      let stack ← shift table position stack
      run table (position + 1) left stack

def anyAccepts (table : Table κ) : List Nat → Except Fault Bool
  | [] => .ok false
  | id :: rest => do
      let state ← table.stateAt id
      if state.accepts then .ok true else anyAccepts table rest

end Stack

namespace Forest

variable {κ : Type}

/-- All derivations of a lattice, with the root that spans it if there is one. -/
def recognized (table : Table κ) (lattice : Lattice) : Except Fault Forest := do
  let stack ← Stack.run table 0 lattice.length (.initial lattice)
  let column ← stack.columnAt lattice.length
  let accepted ← Stack.anyAccepts table column.states
  let root := if accepted then stack.forest.find? table.start 0 lattice.length else none
  .ok { stack.forest with root }

/-- The forest of a lattice, with alternatives in order. Fails unless the start symbol derives the
whole input. -/
def ofLattice (table : Table κ) (lattice : Lattice) :
    Except Fault (Except ParseError Forest) := do
  let forest ← recognized table lattice
  if forest.root.isNone then .ok (.error (.noDerivation (Lattice.textOf lattice.tokens)))
  else .ok (.ok forest.sorted)

end Forest

end QueryGrammar
