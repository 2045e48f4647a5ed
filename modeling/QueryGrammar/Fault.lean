namespace QueryGrammar

/-! What stops a computation.

Tables, forests and stacks refer to their parts by number.  Every such reference is looked up
here, and one that is out of range stops the computation with a fault that names it.  A recursion
without end and a position beyond the machine's words are faults of their own: nothing is out of
range where they occur.
-/

inductive Fault where
  | noSymbol (id : Nat)
  | noRule (id : Nat)
  | noState (id : Nat)
  | noNode (id : Nat)
  | noMatch (id : Nat)
  | noPosition (position : Nat)
  | noVertex (state position : Nat)
  | endless
  | overflow
deriving DecidableEq, Repr

namespace Fault

/-- Whether something was looked up that is not there. -/
def isOutOfRange : Fault → Bool
  | endless | overflow => false
  | _ => true

/-- However it ends, nothing is looked up that is not there. -/
def InBounds (outcome : Except Fault α) : Prop :=
  ∀ fault, outcome = .error fault → fault.isOutOfRange = false

def lookUp (fault : Nat → Fault) (values : Array α) (id : Nat) : Except Fault α :=
  match values[id]? with
  | some value => .ok value
  | none => .error (fault id)

theorem lookUp_of_lt {fault : Nat → Fault} {values : Array α} {id : Nat}
    (inside : id < values.size) : lookUp fault values id = .ok values[id] := by
  simp [lookUp, Array.getElem?_eq_getElem inside]

theorem inBounds_ok (value : α) : InBounds (.ok value) := by
  intro fault impossible
  cases impossible

theorem inBounds_error {fault : Fault} (other : fault.isOutOfRange = false) :
    InBounds (.error fault : Except Fault α) := by
  intro again same
  cases same
  exact other

end Fault

end QueryGrammar
