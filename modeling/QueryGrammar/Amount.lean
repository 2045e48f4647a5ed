namespace QueryGrammar

/-! Amounts: floating-point numbers that stay apart when they are undefined.

An amount that is undefined still has a sign, which it keeps through every sum and difference and by
which it is placed before or behind all other amounts.
-/

inductive Amount where
  | known (value : Float)
  | undefined (negative : Bool)

namespace Amount

/-- What arithmetic with known amounts gives. Where it has no answer, as for the difference of two
infinities, the amount is undefined and negative. -/
def ofResult (x : Float) : Amount :=
  if x.isNaN then .undefined true else .known x

/-- Arithmetic on amounts; the first undefined one prevails. -/
def combine (operate : Float → Float → Float) : Amount → Amount → Amount
  | .known first, .known second => ofResult (operate first second)
  | .known _, .undefined negative => .undefined negative
  | .undefined negative, _ => .undefined negative

def add : Amount → Amount → Amount :=
  combine (· + ·)

def sub : Amount → Amount → Amount :=
  combine (· - ·)

def infinite : Amount :=
  .known (1.0 / 0.0)

def ofNat (n : Nat) : Amount :=
  .known (Float.ofNat n)

/-- Nothing is less than an undefined amount or more than one. -/
def less : Amount → Amount → Bool
  | .known first, .known second => first < second
  | _, _ => false

/-- Undefined amounts equal nothing, not even themselves. -/
instance : BEq Amount where
  beq
    | .known first, .known second => first == second
    | _, _ => false

/-- The bits by which an amount is stored. -/
def bits : Amount → Nat
  | .known x => x.toBits.toNat
  | .undefined negative => (if negative then 0xfff8 else 0x7ff8) * Nat.pow 2 48

/-- Places amounts in a line: negative ones by falling magnitude and then positive ones by rising
magnitude, the negative zero before the positive one and undefined ones at the ends. -/
def rank (amount : Amount) : Nat :=
  if amount.bits < Nat.pow 2 63 then amount.bits + Nat.pow 2 63
  else Nat.pow 2 64 - 1 - amount.bits

def isFinite : Amount → Bool
  | .known x => x.isFinite
  | .undefined _ => false

def isNonnegative : Amount → Bool
  | .known x => 0.0 ≤ x
  | .undefined _ => false

/-- The whole number below a positive amount, up to the largest of 64 bits; otherwise zero. -/
def toCount : Amount → Nat
  | .known x => x.toUInt64.toNat
  | .undefined _ => 0

end Amount

end QueryGrammar
