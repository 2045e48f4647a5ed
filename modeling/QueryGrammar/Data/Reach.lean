namespace QueryGrammar

/-! What can be reached along edges.

One search goes breadth first and marks a vertex as soon as it is found, so that a vertex waits for
its turn once.  The other goes depth first, marks a vertex when it is its turn, and stops at its goal,
be it where it set out from.  Both follow the edges of a vertex once, so the edges and the first
vertices together bound the number of turns.
-/

/-- Edges of a finite graph, from source to target. -/
abbrev Edges := List (String × String)

/-- Vertices that are not marked, each once and in order. -/
def unmarked (marked : List String) : List String → List String
  | [] => []
  | vertex :: rest =>
      if marked.contains vertex then unmarked marked rest
      else vertex :: unmarked (vertex :: marked) rest

namespace Edges

def targets (edges : Edges) (vertex : String) : List String :=
  (edges.filter (·.1 == vertex)).map (·.2)

/-- Marks what the waiting vertices lead to, which then waits behind them. -/
def spread (edges : Edges) : Nat → List String → List String → List String
  | 0, _, marked => marked
  | _ + 1, [], marked => marked
  | turns + 1, vertex :: waiting, marked =>
      let found := unmarked marked (edges.targets vertex)
      spread edges turns (waiting ++ found) (found ++ marked)

/-- Everything reachable from `start`, itself included. -/
def reachable (edges : Edges) (start : String) : List String :=
  edges.spread (edges.length + 1) [start] [start]

/-- Whether a waiting vertex is the goal or leads to it. What a vertex leads to takes its turn before
all others, the last one first. -/
def chase (edges : Edges) (goal : String) : Nat → List String → List String → Bool
  | 0, _, _ => false
  | _ + 1, [], _ => false
  | turns + 1, vertex :: waiting, marked =>
      if vertex == goal then true
      else if marked.contains vertex then chase edges goal turns waiting marked
      else chase edges goal turns ((edges.targets vertex).reverse ++ waiting) (vertex :: marked)

/-- Whether `goal` lies at the end of a path of at least one edge from `start`. -/
def reaches (edges : Edges) (start goal : String) : Bool :=
  let first := (edges.targets start).reverse
  edges.chase goal (first.length + edges.length) first []

end Edges

end QueryGrammar
