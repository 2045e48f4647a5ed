namespace QueryGrammar.Text

/-! Character classes given by the inclusive ranges of code points they hold. -/

/-- A class of characters, as inclusive ranges of code points. -/
abbrev Ranges := Array (Nat × Nat)

def Ranges.contains (ranges : Ranges) (c : Char) : Bool :=
  ranges.any fun (low, high) => low ≤ c.toNat && c.toNat ≤ high

end QueryGrammar.Text
