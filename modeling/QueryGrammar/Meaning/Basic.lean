import QueryGrammar.Cost
import QueryGrammar.Json.Basic

namespace QueryGrammar

/-! Concepts and the meanings built from them.

A meaning is a concept with the meanings it is applied to.  Meanings are compared, and are the
same, by the names of their concepts alone: what a concept costs or allows does not count.
-/

inductive ConceptKind where
  /-- Takes between `fewest` and `most` arguments. An exclusive function is applied at most once
  among siblings, and functions about people do not mix with others. -/
  | function (fewest most : Nat) (exclusive people : Bool)
  | argument
deriving DecidableEq, Repr

structure Concept (κ : Type) where
  name : String
  cost : κ
  kind : ConceptKind
deriving BEq

inductive Meaning (κ : Type) where
  | apply (concept : Concept κ) (args : List (Meaning κ))

namespace Concept

variable {κ : Type}

def isArgument (concept : Concept κ) : Bool :=
  match concept.kind with
  | .argument => true
  | .function .. => false

def isExclusive (concept : Concept κ) : Bool :=
  match concept.kind with
  | .argument => false
  | .function _ _ exclusive _ => exclusive

def isPeople (concept : Concept κ) : Bool :=
  match concept.kind with
  | .argument => false
  | .function _ _ _ people => people

/-- Makes a function exclusive; arguments stay as they are. -/
def forbiddingMultiple (concept : Concept κ) : Concept κ :=
  match concept.kind with
  | .argument => concept
  | .function fewest most _ people => { concept with kind := .function fewest most true people }

/-- Makes a function one about people; arguments stay as they are. -/
def describingPeople (concept : Concept κ) : Concept κ :=
  match concept.kind with
  | .argument => concept
  | .function fewest most exclusive _ =>
      { concept with kind := .function fewest most exclusive true }

end Concept

namespace Meaning

variable {κ : Type}

def concept : Meaning κ → Concept κ
  | .apply concept _ => concept

def args : Meaning κ → List (Meaning κ)
  | .apply _ args => args

def name (meaning : Meaning κ) : String :=
  meaning.concept.name

def isArgument (meaning : Meaning κ) : Bool :=
  meaning.concept.isArgument

def leaf (concept : Concept κ) : Meaning κ :=
  .apply concept []

/-- An argument that no concept was declared for, such as the id of an entity. -/
def entity [Cost κ] (id : String) : Meaning κ :=
  leaf ⟨id, 0, .argument⟩

/-- An open meaning waits for arguments: a function without any, or a function around one open
meaning. -/
def isOpen : Meaning κ → Bool
  | .apply concept args =>
      !concept.isArgument && match args with
        | [] => true
        | [only] => only.isOpen
        | _ => false

mutual

def order : Meaning κ → Meaning κ → Ordering
  | .apply concept args, .apply other otherArgs =>
      (compare concept.name other.name).then (orderAll args otherArgs)

/-- Lists are ordered by the first difference, and a list comes after its beginnings. -/
def orderAll : List (Meaning κ) → List (Meaning κ) → Ordering
  | [], [] => .eq
  | [], _ :: _ => .lt
  | _ :: _, [] => .gt
  | first :: rest, other :: others => (order first other).then (orderAll rest others)

end

instance : Ord (Meaning κ) := ⟨order⟩

/-- Sameness of names all the way down. -/
instance : BEq (Meaning κ) := ⟨fun first second => order first second == .eq⟩

mutual

/-- The cost of every concept in the meaning. -/
def cost [Cost κ] : Meaning κ → κ
  | .apply concept args => concept.cost + Cost.total (costs args)

def costs [Cost κ] : List (Meaning κ) → List κ
  | [] => []
  | first :: rest => cost first :: costs rest

end

mutual

def text : Meaning κ → String
  | .apply concept args =>
      if concept.isArgument then concept.name
      else concept.name ++ "(" ++ String.intercalate "," (texts args) ++ ")"

def texts : List (Meaning κ) → List String
  | [] => []
  | first :: rest => text first :: texts rest

end

mutual

/-- Arguments as strings, applications as objects that name the concept and list its arguments. -/
def toObject : Meaning κ → Json
  | .apply concept args =>
      if concept.isArgument then .text concept.name
      else .record [("args", .array (toObjects args)), ("semantic", .text concept.name)]

def toObjects : List (Meaning κ) → List Json
  | [] => []
  | first :: rest => toObject first :: toObjects rest

end

end Meaning

end QueryGrammar
