import QueryGrammar.Decimal.Numeral

namespace QueryGrammar.Shell

open Decimal

/-! Values on the command line, and what makes a text one of a kind. -/

/-- The digits of a whole number, perhaps behind a plus sign. -/
def digitsOf? (text : String) : Option (List Char) :=
  let digits := match text.toList with
    | '+' :: rest => rest
    | chars => chars
  if digits.isEmpty || !digits.all isDigit then none else some digits

/-- Reads a whole number below a bound. -/
def numberBelow? (bound : Nat) (text : String) : Option Nat :=
  (digitsOf? text).bind fun digits =>
    let value := valueOfDigits digits
    if value < bound then some value else none

/-- Reads a number of things. -/
def count? : String → Option Nat :=
  numberBelow? (Nat.pow 2 64)

/-- Reads a number of repetitions, where zero may be negative. -/
def repetitions? (text : String) : Option Nat :=
  match text.toList with
  | '-' :: digits =>
      if !digits.isEmpty && digits.all (· == '0') then some 0 else none
  | _ => numberBelow? (Nat.pow 2 32) text

inductive ValueKind where
  /-- A path cannot be empty. -/
  | path
  | count
  | repetitions
deriving DecidableEq, Repr

def ValueKind.accepts : ValueKind → String → Bool
  | .path, text => !text.isEmpty
  | .count, text => (count? text).isSome
  | .repetitions, text => (repetitions? text).isSome

end QueryGrammar.Shell
