import Std.Data.TreeMap
import QueryGrammar.Meaning.Basic

namespace QueryGrammar

/-! A pool of meanings, in which every meaning is represented by the first one that was the same. -/

/-- Representatives, each found under itself. -/
structure Pool (κ : Type) where
  members : Std.TreeMap (Meaning κ) (Meaning κ) Meaning.order

namespace Pool

variable {κ : Type}

def empty : Pool κ := ⟨∅⟩

def size (pool : Pool κ) : Nat :=
  pool.members.size

/-- The representative of a meaning, which joins the pool if it has none. -/
def intern (pool : Pool κ) (meaning : Meaning κ) : Meaning κ × Pool κ :=
  match pool.members.get? meaning with
  | some representative => (representative, pool)
  | none => (meaning, ⟨pool.members.insert meaning meaning⟩)

def internAll (pool : Pool κ) : List (Meaning κ) → List (Meaning κ) × Pool κ
  | [] => ([], pool)
  | first :: rest =>
      let (representative, pool) := pool.intern first
      let (representatives, pool) := pool.internAll rest
      (representative :: representatives, pool)

end Pool

end QueryGrammar
