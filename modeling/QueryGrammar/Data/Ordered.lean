namespace QueryGrammar

/-! Lists in ascending order without repeats. -/

/-- Inserts a value before the first greater one, unless it is there. -/
def insertOrdered (order : α → α → Ordering) (value : α) : List α → List α
  | [] => [value]
  | first :: rest =>
      match order value first with
      | .lt => value :: first :: rest
      | .eq => first :: rest
      | .gt => first :: insertOrdered order value rest

def ordered (order : α → α → Ordering) (values : List α) : List α :=
  values.foldl (fun sorted value => insertOrdered order value sorted) []

/-- Compares a value with the one in the middle, and goes on in the half where it must be. -/
def searchHalves (order : α → α → Ordering) (value : α) : Nat → List α → Bool
  | 0, _ => false
  | turns + 1, values =>
      match values.drop (values.length / 2) with
      | [] => false
      | middle :: above =>
          match order value middle with
          | .lt => searchHalves order value turns (values.take (values.length / 2))
          | .eq => true
          | .gt => searchHalves order value turns above

/-- Whether a value is in an ascending list. -/
def search (order : α → α → Ordering) (value : α) (values : List α) : Bool :=
  searchHalves order value values.length values

end QueryGrammar
