import QueryGrammar.Meaning.Basic

namespace QueryGrammar.Meaning

/-! Which meanings may stand side by side, and applying concepts to them. -/

variable {κ : Type}

def isBefore (first second : Meaning κ) : Bool :=
  order first second != .gt

/-- Whether two neighbours in order can coexist: they differ, and the first is no exclusive
function that the second repeats. -/
def agree (first second : Meaning κ) : Bool :=
  !(first == second) && !(first.concept.isExclusive && first.name == second.name)

def neighboursAgree : List (Meaning κ) → Bool
  | [] => true
  | [_] => true
  | first :: second :: rest => agree first second && neighboursAgree (second :: rest)

/-- Functions among siblings are all about people or none is. Arguments fit either kind. -/
def isUniform (siblings : List (Meaning κ)) : Bool :=
  match siblings.filter (!·.isArgument) with
  | [] => true
  | first :: rest => rest.all fun other => other.concept.isPeople == first.concept.isPeople

/-- Puts siblings into order, if they can coexist. -/
def arrange? (siblings : List (Meaning κ)) : Option (List (Meaning κ)) :=
  let sorted := siblings.mergeSort isBefore
  if neighboursAgree sorted && isUniform sorted then some sorted else none

/-- Applies a concept to siblings: a function, to as many as it takes. -/
def application? (concept : Concept κ) (siblings : List (Meaning κ)) : Option (Meaning κ) :=
  match concept.kind with
  | .argument => none
  | .function fewest most _ _ =>
      match arrange? siblings with
      | some args =>
          if fewest ≤ args.length ∧ args.length ≤ most then some (.apply concept args) else none
      | none => none

/-- Gives the innermost function of an open meaning its arguments. -/
def fill? : Meaning κ → List (Meaning κ) → Option (Meaning κ)
  | .apply concept args, siblings =>
      match args with
      | [] => application? concept siblings
      | [inner] =>
          match inner.fill? siblings with
          | some filled => application? concept [filled]
          | none => none
      | _ => none

end QueryGrammar.Meaning
