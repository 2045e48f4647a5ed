import QueryGrammar.Forest.Basic

namespace QueryGrammar

/-! Derivation trees, which take one alternative at every node of a forest. -/

/-- A stretch of tokens. -/
structure Span where
  start : Nat
  stop : Nat
deriving DecidableEq, Repr

inductive Tree where
  | leaf (found : Nat) (span : Span)
  | branch (node rule : Nat) (span : Span) (children : List Tree)

/-- A node and the position of one of its alternatives. -/
abbrev Choice := Nat × Nat

namespace Tree

variable {κ : Type} [Cost κ]

/-- Builds trees for nodes in order, each from the choices that the one before left. -/
def buildAll (build : Nat → List Choice → Except Fault (Option (Tree × List Choice))) :
    List Nat → List Choice → Except Fault (Option (List Tree × List Choice))
  | [], choices => .ok (some ([], choices))
  | node :: rest, choices => do
      match ← build node choices with
      | none => .ok none
      | some (tree, choices) =>
          match ← buildAll build rest choices with
          | none => .ok none
          | some (trees, choices) => .ok (some (tree :: trees, choices))

/-- Builds a tree for a node from choices in pre-order. A tree is no deeper than its choices are
many. -/
def build (forest : Forest) : Nat → Nat → List Choice →
    Except Fault (Option (Tree × List Choice))
  | 0, _, _ => .ok none
  | _ + 1, _, [] => .ok none
  | fuel + 1, id, (chosen, index) :: choices =>
      if chosen ≠ id then .ok none
      else do
        let node ← forest.nodeAt id
        match node.alternatives[index]? with
        | none => .ok none
        | some (.terminal rule found) =>
            let span : Span := ⟨node.start, node.stop⟩
            .ok (some (.branch id rule span [.leaf found span], choices))
        | some (.branch rule children) =>
            match ← buildAll (build forest fuel) children choices with
            | none => .ok none
            | some (trees, choices) =>
                .ok (some (.branch id rule ⟨node.start, node.stop⟩ trees, choices))

/-- The tree whose choices in pre-order are the given ones, if there is one. -/
def ofChoices (forest : Forest) (choices : List Choice) : Except Fault (Option Tree) :=
  match choices with
  | [] => .ok none
  | (root, index) :: rest => do
      match ← build forest choices.length root ((root, index) :: rest) with
      | some (tree, []) => .ok (some tree)
      | _ => .ok none

mutual

/-- The cost of all rules in a tree. -/
def cost (table : Table κ) : Tree → Except Fault κ
  | .leaf _ _ => .ok 0
  | .branch _ rule _ children => do
      let ruleCost ← table.costOf rule
      let costs ← costs table children
      .ok (ruleCost + Cost.total costs)

def costs (table : Table κ) : List Tree → Except Fault (List κ)
  | [] => .ok []
  | first :: rest => do
      let cost ← cost table first
      let others ← costs table rest
      .ok (cost :: others)

end

end Tree

end QueryGrammar
