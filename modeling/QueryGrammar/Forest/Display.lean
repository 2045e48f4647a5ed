import QueryGrammar.Forest.Basic

namespace QueryGrammar.Forest

/-! Forests as text and as graphs. -/

open Decimal

def nodeName (table : Table Amount) (node : Node) : Except Fault String := do
  let symbol ← table.symbolName node.symbol
  .ok (symbol ++ "[" ++ node.start.repr ++ ".." ++ node.stop.repr ++ "]")

def alternativeText (table : Table Amount) (forest : Forest) (alternative : Alternative) :
    Except Fault String := do
  let parts ← match alternative with
    | .terminal _ found => do
        let found ← forest.matchAt found
        .ok (" \"" ++ found.text ++ "\"")
    | .branch _ children => do
        let names ← children.mapM fun child => do
          let node ← forest.nodeAt child
          let name ← nodeName table node
          .ok (" " ++ name)
        .ok (String.join names)
  let cost ← table.costOf alternative.rule
  .ok (parts ++ " (" ++ costText cost ++ ")")

def nodeText (table : Table Amount) (forest : Forest) (id : Nat) (node : Node) :
    Except Fault String := do
  let name ← nodeName table node
  let alternatives ← node.alternatives.mapM (alternativeText table forest)
  .ok ((if forest.root == some id then "*" else "") ++ name ++ " =" ++
    String.intercalate " |" alternatives ++ "\n")

/-- A line for every node, with its alternatives; the root is marked. -/
def text (forest : Forest) (table : Table Amount) : Except Fault String := do
  let lines ← forest.nodes.toList.zipIdx.mapM fun (node, id) => nodeText table forest id node
  .ok (String.join lines)

/-- Escapes the quotes of a label. -/
def escapeQuotes (label : String) : String :=
  String.ofList (label.toList.flatMap fun c => if c = '"' then ['\\', '"'] else [c])

def alternativeGraph (table : Table Amount) (forest : Forest) (id index : Nat)
    (alternative : Alternative) : Except Fault String := do
  let name := "n" ++ id.repr ++ "a" ++ index.repr
  let cost ← table.costOf alternative.rule
  let edges ← match alternative with
    | .terminal _ found => do
        let found ← forest.matchAt found
        .ok ("  " ++ name ++ "t [shape=plaintext, label=\"" ++ escapeQuotes found.text ++ "\"];\n" ++
          "  " ++ name ++ " -> " ++ name ++ "t;\n")
    | .branch _ children =>
        .ok (String.join (children.map fun child =>
          "  " ++ name ++ " -> n" ++ child.repr ++ ";\n"))
  .ok ("  " ++ name ++ " [shape=point];\n" ++
    "  n" ++ id.repr ++ " -> " ++ name ++ " [label=\"" ++ costText cost ++ "\"];\n" ++ edges)

def nodeGraph (table : Table Amount) (forest : Forest) (id : Nat) (node : Node) :
    Except Fault String := do
  let symbol ← table.symbolName node.symbol
  let alternatives ← node.alternatives.zipIdx.mapM fun (alternative, index) =>
    alternativeGraph table forest id index alternative
  .ok ("  n" ++ id.repr ++ " [label=\"" ++ symbol ++ " " ++ node.start.repr ++ ".." ++
    node.stop.repr ++ "\"" ++ (if forest.root == some id then ", peripheries=2" else "") ++
    "];\n" ++ String.join alternatives)

/-- A graph in the language of Graphviz: a box for every node and a point for every
alternative. -/
def graph (forest : Forest) (table : Table Amount) : Except Fault String := do
  let nodes ← forest.nodes.toList.zipIdx.mapM fun (node, id) => nodeGraph table forest id node
  .ok ("digraph forest \x7b\n  node [shape=box];\n" ++ String.join nodes ++ "\x7d\n")

end QueryGrammar.Forest
