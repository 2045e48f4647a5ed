import QueryGrammar.Decimal.Numeral

namespace QueryGrammar.Decimal

/-! The fewest digits that read back as the same number.

The fractions that round to a number form an interval around it, which holds its ends exactly when
the mantissa is even.  On each grid of multiples of a power of ten the two neighbours of the number
are tried, the coarsest grid first.
-/

/-- The fractions that round to a positive number. -/
structure Span where
  low : Fraction
  value : Fraction
  high : Fraction
  closed : Bool

/-- At a power of two the numbers below lie twice as dense as those above. -/
def Binary.span (b : Binary) : Span :=
  let isPower := b.mantissa = Nat.pow 2 52 ∧ b.exponent ≠ -1074
  let at4 (quarters : Nat) : Fraction := Fraction.scale ⟨quarters, 1⟩ 2 (b.exponent - 2)
  { low := at4 (4 * b.mantissa - if isPower then 1 else 2)
    value := at4 (4 * b.mantissa)
    high := at4 (4 * b.mantissa + 2)
    closed := b.mantissa % 2 = 0 }

def Fraction.less (a b : Fraction) : Bool :=
  a.num * b.den < b.num * a.den

/-- `digits * 10 ^ power`. -/
structure Scaled where
  digits : Nat
  power : Int

def Scaled.fraction (s : Scaled) : Fraction :=
  Fraction.scale ⟨s.digits, 1⟩ 10 s.power

def Span.contains (span : Span) (f : Fraction) : Bool :=
  if span.closed then !f.less span.low && !span.high.less f
  else span.low.less f && f.less span.high

/-- The neighbour of the value on the grid of `10 ^ power` that reads back, the nearer of two. -/
def Span.onGrid (span : Span) (power : Int) : Option Scaled :=
  let scaled := span.value.scale 10 (-power)
  let below : Scaled := ⟨scaled.num / scaled.den, power⟩
  let above : Scaled := ⟨below.digits + 1, power⟩
  match span.contains below.fraction, span.contains above.fraction with
  | true, true => some ⟨scaled.round, power⟩
  | true, false => some below
  | false, true => some above
  | false, false => none

/-- Tries grids from the coarsest on. -/
def Span.search (span : Span) : Nat → Int → Option Scaled
  | 0, _ => none
  | fuel + 1, power =>
      match span.onGrid power with
      | some found => some found
      | none => span.search fuel (power - 1)

/-- A grid too coarse for any number in the span. -/
def Span.coarsest (span : Span) : Int :=
  ((span.value.num.log2 : Int) - span.value.den.log2 + 1) * 30103 / 100000 + 2

def Binary.shortest (b : Binary) : Scaled :=
  (b.span.search 40 b.span.coarsest).getD ⟨b.mantissa, 0⟩

/-- The written form of a finite number: positional with a point from `0.00001` up to below
`10 ^ 16`, and with a power of ten otherwise. -/
def Binary.numeral (b : Binary) : Numeral :=
  if b.mantissa = 0 then ⟨b.negative, ['0'], some ['0'], none⟩
  else
    let shortest := b.shortest
    let digits := digitsOf shortest.digits
    let lead : Int := digits.length - 1 + shortest.power
    if lead < -5 ∨ 16 ≤ lead then
      let fraction := if digits.length ≤ 1 then none else some (digits.drop 1)
      ⟨b.negative, digits.take 1, fraction, some (lead < 0, digitsOf lead.natAbs)⟩
    else if lead < 0 then
      ⟨b.negative, ['0'], some (List.replicate (lead.natAbs - 1) '0' ++ digits), none⟩
    else
      let before := lead.toNat + 1
      if digits.length ≤ before then
        ⟨b.negative, digits ++ List.replicate (before - digits.length) '0', some ['0'], none⟩
      else ⟨b.negative, digits.take before, some (digits.drop before), none⟩

/-- The numeral of a finite number; infinities and undefined values have none. -/
def numeralOf? (x : Float) : Option Numeral :=
  match parts x with
  | .finite b => some b.numeral
  | _ => none

end QueryGrammar.Decimal
