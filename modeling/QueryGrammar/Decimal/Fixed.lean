import QueryGrammar.Amount
import QueryGrammar.Decimal.Binary

namespace QueryGrammar.Decimal

/-! Amounts with a fixed number of places. -/

def padLeft (width : Nat) (digits : List Char) : List Char :=
  List.replicate (width - digits.length) '0' ++ digits

def digitsOf (n : Nat) : List Char :=
  Nat.toDigits 10 n

/-- The nearest amount with `places` digits after the point; a half goes to the even digit. -/
def Binary.fixed (b : Binary) (places : Nat) : List Char :=
  let units := (b.magnitude.scale 10 places).round
  let whole := digitsOf (units / Nat.pow 10 places)
  let fraction := padLeft places (digitsOf (units % Nat.pow 10 places))
  (if b.negative then ['-'] else []) ++ whole ++ ['.'] ++ fraction

def dropTrailing (c : Char) (text : List Char) : List Char :=
  (text.reverse.dropWhile (· == c)).reverse

/-- The text of a cost: seven places, without the zeros at the end and without a point that then
stands last. -/
def costText : Amount → String
  | .undefined _ => "NaN"
  | .known x =>
      match parts x with
      | .undefined => "NaN"
      | .infinite negative => if negative then "-inf" else "inf"
      | .finite b => String.ofList (dropTrailing '.' (dropTrailing '0' (b.fixed 7)))

end QueryGrammar.Decimal
