import QueryGrammar.Tree.Basic

namespace QueryGrammar

/-! Printable trees: symbols with what they cost at the branches, and the matched input at the
leaves. -/

inductive LabelledTree where
  | leaf (text : String) (span : Span)
  | branch (label : String) (span : Span) (children : List LabelledTree)

namespace Tree

def labelOf (table : Table Amount) (rule : Nat) (cost : Amount) : Except Fault String := do
  let found ← table.ruleAt rule
  let symbol ← table.symbolName found.symbol
  .ok (symbol ++ " (" ++ Decimal.costText cost ++ ")" ++
    (if found.rule.transposed then " transposed" else "") ++
    (if found.rule.insertion.isSome then " +insertion" else ""))

mutual

def labelled (table : Table Amount) (forest : Forest) : Tree → Except Fault LabelledTree
  | .leaf found span => do
      let found ← forest.matchAt found
      .ok (.leaf found.text span)
  | .branch node rule span children => do
      let cost ← cost table (.branch node rule span children)
      let label ← labelOf table rule cost
      let children ← allLabelled table forest children
      .ok (.branch label span children)

def allLabelled (table : Table Amount) (forest : Forest) :
    List Tree → Except Fault (List LabelledTree)
  | [] => .ok []
  | first :: rest => do
      let tree ← labelled table forest first
      let trees ← allLabelled table forest rest
      .ok (tree :: trees)

end

end Tree

def Span.text (span : Span) (label : String) : String :=
  span.start.repr ++ ".." ++ span.stop.repr ++ ": " ++ label

/-- Starts every line of a text anew, indented by two spaces. -/
def indented (text : String) : String :=
  String.join ((Text.linesOf text).map fun line => "\n  " ++ line)

namespace LabelledTree

mutual

/-- A branch in brackets: an only child on its line, and others indented below. -/
def text : LabelledTree → String
  | .leaf label span => span.text label
  | .branch label span [only] => "(" ++ span.text label ++ " (" ++ only.text ++ "))"
  | .branch label span children => "(" ++ span.text label ++ allText children ++ ")"

def allText : List LabelledTree → String
  | [] => ""
  | first :: rest => indented first.text ++ allText rest

end

end LabelledTree

end QueryGrammar
