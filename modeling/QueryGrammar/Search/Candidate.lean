import QueryGrammar.Meaning.Pool
import QueryGrammar.Search.Frame
import QueryGrammar.Tree.Basic

namespace QueryGrammar

/-! Candidates: derivations built from the top, in pre-order, up to the nodes still to be
expanded. -/

inductive Step where
  | expand (node : Nat)
  /-- Close the innermost frame. -/
  | close
deriving DecidableEq, Repr

structure Candidate (κ : Type) where
  cost : κ
  /-- The cost with the cheapest completion of every node still to be expanded. -/
  bound : κ
  steps : List Step
  frames : List (Frame κ)
  /-- The choices made, the latest first. -/
  choices : List Choice

/-- How the meanings met in a search are represented. -/
abbrev Sharing (κ : Type) := Pool κ → Meaning κ → Meaning κ × Pool κ

/-- A search in a forest: what it needs to know to expand candidates. -/
structure Search (κ : Type) where
  table : Table κ
  forest : Forest
  /-- The cost of the cheapest derivation of every node. -/
  cheapest : Array κ
  share : Sharing κ

namespace Search

variable {κ : Type} [Cost κ]

def shareAll (share : Sharing κ) (pool : Pool κ) :
    List (Meaning κ) → List (Meaning κ) × Pool κ
  | [] => ([], pool)
  | first :: rest =>
      let (shared, pool) := share pool first
      let (others, pool) := shareAll share pool rest
      (shared :: others, pool)

/-- Hands meanings to the innermost frame. -/
def contribute (meanings : List (Meaning κ)) : List (Frame κ) → List (Frame κ)
  | [] => []
  | top :: rest => { top with args := top.args ++ meanings } :: rest

/-- The meanings of a rule on a literal. A placeholder hands its entity to the meaning of its rule,
if that is open. -/
def literalMeanings (rule : Rule κ) (entity : Option Entity) : Option (List (Meaning κ)) :=
  let argument : Option (Meaning κ) :=
    if rule.role = .placeholder then entity.map fun entity => .entity entity.id else none
  match rule.meaning, argument with
  | none, none => some []
  | none, some argument => some [argument]
  | some meaning, none => some [meaning]
  | some meaning, some argument =>
      if meaning.isOpen then (meaning.fill? [argument]).map ([·]) else some [meaning, argument]

/-- Closes frames for as long as that comes next. -/
def settle (share : Sharing κ) (pool : Pool κ) :
    List Step → List (Frame κ) → Option (List Step × List (Frame κ)) × Pool κ
  | .close :: steps, frames =>
      match frames with
      | [] => (none, pool)
      | frame :: outer =>
          match frame.close? with
          | none => (none, pool)
          | some meanings =>
              let (meanings, pool) := shareAll share pool meanings
              settle share pool steps (contribute meanings outer)
  | steps, frames => (some (steps, frames), pool)

/-- The steps and frames of a candidate after taking an alternative; none if meanings do not
combine. -/
def enter (search : Search κ) (pool : Pool κ) (rule : Rule κ) (alternative : Alternative)
    (steps : List Step) (frames : List (Frame κ)) :
    Except Fault (Option (List Step × List (Frame κ)) × Pool κ) :=
  match alternative with
  | .terminal _ found => do
      let found ← search.forest.matchAt found
      match literalMeanings rule found.entity with
      | none => .ok (none, pool)
      | some meanings =>
          let (meanings, pool) := shareAll search.share pool meanings
          .ok (settle search.share pool steps (contribute meanings frames))
  | .branch _ children =>
      let (inserted, pool) :=
        shareAll search.share pool (rule.insertion.bind Insertion.meaning).toList
      let frame : Frame κ := ⟨rule.meaning, inserted⟩
      .ok (settle search.share pool (children.map Step.expand ++ .close :: steps)
        (frame :: frames))

def cheapestOf (search : Search κ) (id : Nat) : Except Fault κ :=
  Fault.lookUp .noNode search.cheapest id

/-- The candidate that takes one alternative for its next node. -/
def choose (search : Search κ) (candidate : Candidate κ) (id : Nat) (steps : List Step)
    (pool : Pool κ) (alternative : Alternative) (index : Nat) :
    Except Fault (Option (Candidate κ) × Pool κ) := do
  let rule := (← search.table.ruleAt alternative.rule).rule
  let childCosts ← alternative.children.mapM search.cheapestOf
  let nodeCost ← search.cheapestOf id
  let (entered, pool) ← search.enter pool rule alternative steps candidate.frames
  match entered with
  | none => .ok (none, pool)
  | some (steps, frames) =>
      .ok (some {
        cost := candidate.cost + rule.cost
        bound := candidate.bound - nodeCost + rule.cost + Cost.total childCosts
        steps
        frames
        choices := (id, index) :: candidate.choices }, pool)

/-- What becomes of a candidate: its successors, and how many alternatives were dropped. -/
structure Expansion (κ : Type) where
  successors : List (Candidate κ)
  dropped : Nat
  pool : Pool κ

def expandWith (search : Search κ) (candidate : Candidate κ) (id : Nat) (steps : List Step) :
    List Alternative → Nat → Pool κ → Except Fault (Expansion κ)
  | [], _, pool => .ok ⟨[], 0, pool⟩
  | alternative :: rest, index, pool => do
      let (chosen, pool) ← search.choose candidate id steps pool alternative index
      let others ← search.expandWith candidate id steps rest (index + 1) pool
      match chosen with
      | some successor => .ok { others with successors := successor :: others.successors }
      | none => .ok { others with dropped := others.dropped + 1 }

/-- Every candidate that takes an alternative for the next node. -/
def expand (search : Search κ) (candidate : Candidate κ) (id : Nat) (steps : List Step)
    (pool : Pool κ) : Except Fault (Expansion κ) := do
  let node ← search.forest.nodeAt id
  search.expandWith candidate id steps node.alternatives 0 pool

end Search

end QueryGrammar
