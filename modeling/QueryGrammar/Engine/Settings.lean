namespace QueryGrammar

/-! What an engine is set up with. -/

structure SearchSettings where
  /-- How many results a query gets unless it asks for a number of its own. -/
  results : Nat := 7
  maxExpansions : Nat := 200000
  /-- Milliseconds that a search may take. -/
  timeLimit : Option Nat := none
deriving DecidableEq, Repr

structure Settings where
  search : SearchSettings := {}
  /-- Where the grammar is. -/
  grammar : Option String := none
  /-- Where the entities are. -/
  entities : Option String := none
deriving DecidableEq, Repr

end QueryGrammar
