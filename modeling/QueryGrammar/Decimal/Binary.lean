namespace QueryGrammar.Decimal

/-! What a floating-point number is exactly, and the number nearest to an exact fraction. -/

/-- A finite number: `± mantissa * 2 ^ exponent`. -/
structure Binary where
  negative : Bool
  mantissa : Nat
  exponent : Int

inductive Parts where
  | finite (binary : Binary)
  | infinite (negative : Bool)
  | undefined

def parts (x : Float) : Parts :=
  let bits : Nat := x.toBits.toNat
  let negative := bits / Nat.pow 2 63 == 1
  let biased : Nat := bits / Nat.pow 2 52 % Nat.pow 2 11
  let fraction := bits % Nat.pow 2 52
  if biased = 2047 then
    if fraction = 0 then .infinite negative else .undefined
  else if biased = 0 then .finite ⟨negative, fraction, -1074⟩
  else .finite ⟨negative, fraction + Nat.pow 2 52, (biased : Int) - 1075⟩

/-- A nonnegative fraction. -/
structure Fraction where
  num : Nat
  den : Nat

def Fraction.scale (f : Fraction) (base : Nat) (power : Int) : Fraction :=
  if power < 0 then ⟨f.num, f.den * Nat.pow base power.natAbs⟩
  else ⟨f.num * Nat.pow base power.natAbs, f.den⟩

def Binary.magnitude (b : Binary) : Fraction :=
  Fraction.scale ⟨b.mantissa, 1⟩ 2 b.exponent

/-- The integer nearest to a fraction; of two, the even one. -/
def Fraction.round (f : Fraction) : Nat :=
  let whole := f.num / f.den
  let twice := 2 * (f.num % f.den)
  if f.den < twice ∨ (twice = f.den ∧ whole % 2 = 1) then whole + 1 else whole

/-- Rounding moves a fraction by at most half a unit. -/
theorem Fraction.round_near (f : Fraction) (positive : 0 < f.den) :
    2 * f.num ≤ (2 * f.round + 1) * f.den ∧ 2 * f.round * f.den ≤ 2 * f.num + f.den := by
  have split := Nat.div_add_mod f.num f.den
  have small := Nat.mod_lt f.num positive
  have grouped : ∀ k : Nat, (2 * k) * f.den = 2 * (f.den * k) := by
    intro k
    rw [Nat.mul_assoc, Nat.mul_comm k]
  unfold round
  simp only
  split
  · rename_i up
    have apart := Nat.mul_add f.den (f.num / f.den) 1
    rw [Nat.add_mul, grouped, apart]
    omega
  · rename_i down
    rw [Nat.add_mul, grouped]
    omega

/-- The least power of two in whose multiples a fraction is written with 53 bits, or the least
power there is. -/
def Fraction.unitExponent (f : Fraction) : Int :=
  let guess : Int := (f.num.log2 : Int) - f.den.log2 - 52
  let scaled := f.scale 2 (-guess)
  let exponent := if scaled.num < Nat.pow 2 52 * scaled.den then guess - 1 else guess
  max exponent (-1074)

/-- The floating-point number nearest to a fraction; of two, the one with even mantissa.
Fractions beyond the largest finite number by half a unit or more go to infinity. -/
def Fraction.toFloat (f : Fraction) (negative : Bool) : Float :=
  let bits :=
    if f.num = 0 then 0
    else
      let exponent := f.unitExponent
      let mantissa := (f.scale 2 (-exponent)).round
      min ((exponent + 1074).toNat * Nat.pow 2 52 + mantissa) (2047 * Nat.pow 2 52)
  Float.ofBits (UInt64.ofNat (if negative then bits + Nat.pow 2 63 else bits))

/-- The number nearest to `digits * 10 ^ power`. Powers so far out that the answer is zero or
infinity are cut off. -/
def nearest (negative : Bool) (digits : Nat) (power : Int) : Float :=
  let width : Int := digits.log2 * 30103 / 100000
  let reach : Int :=
    if width + power > 400 then 400 - width
    else if width + power < -400 then -400 - width
    else power
  (Fraction.scale ⟨digits, 1⟩ 10 reach).toFloat negative

end QueryGrammar.Decimal
