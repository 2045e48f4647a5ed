import QueryGrammar.Decimal.Fixed

namespace QueryGrammar.Decimal

/-! Numbers as they are written: an optional minus sign, digits, perhaps a point and more digits,
perhaps a power of ten. -/

structure Numeral where
  negative : Bool
  whole : List Char
  fraction : Option (List Char)
  /-- Sign and digits of the power of ten; `true` is a minus sign. -/
  power : Option (Bool × List Char)
deriving DecidableEq

def isDigit (c : Char) : Bool :=
  '0' ≤ c && c ≤ '9'

def digitValue (c : Char) : Nat :=
  c.toNat - 48

def valueOfDigits (digits : List Char) : Nat :=
  digits.foldl (fun value c => 10 * value + digitValue c) 0

def Numeral.render (n : Numeral) : List Char :=
  (if n.negative then ['-'] else []) ++ n.whole ++
    (match n.fraction with
      | none => []
      | some digits => '.' :: digits) ++
    match n.power with
    | none => []
    | some (negative, digits) => 'e' :: (if negative then '-' else '+') :: digits

/-- The power of ten by which the digits are scaled. Powers of more than twenty digits are cut
off, far beyond the range of any number. -/
def Numeral.shift (n : Numeral) : Int :=
  let places : Int := (n.fraction.getD []).length
  match n.power with
  | none => -places
  | some (negative, digits) =>
      let significant := digits.dropWhile (· == '0')
      let size := if 20 < significant.length then Nat.pow 10 20 else valueOfDigits significant
      if negative then -(size : Int) - places else size - places

/-- The number nearest to the numeral, which is infinite when the numeral is out of range. -/
def Numeral.toFloat (n : Numeral) : Float :=
  nearest n.negative (valueOfDigits (n.whole ++ n.fraction.getD [])) n.shift

def Numeral.ofNat (n : Nat) : Numeral :=
  ⟨false, digitsOf n, none, none⟩

/-- Only digits make a natural number: no sign, point or power. -/
def Numeral.toNat? (n : Numeral) : Option Nat :=
  match n with
  | ⟨false, whole, none, none⟩ => some (valueOfDigits whole)
  | _ => none

/-- Reads the digits that come next. -/
def spanDigits (text : List Char) : List Char × List Char :=
  (text.takeWhile isDigit, text.dropWhile isDigit)

/-- Reads a power of ten after its letter: an optional sign and at least one digit. -/
def readPower (text : List Char) : Option ((Bool × List Char) × List Char) :=
  let (negative, unsigned) := match text with
    | '-' :: rest => (true, rest)
    | '+' :: rest => (false, rest)
    | rest => (false, rest)
  match spanDigits unsigned with
  | ([], _) => none
  | (digits, rest) => some ((negative, digits), rest)

/-- Reads an optional power of ten. -/
def readPower? (text : List Char) : Option (Option (Bool × List Char) × List Char) :=
  match text with
  | c :: rest =>
      if c == 'e' || c == 'E' then (readPower rest).map fun (power, tail) => (some power, tail)
      else some (none, text)
  | [] => some (none, [])

def asciiLower (text : List Char) : List Char :=
  text.map Char.toLower

/-- Reads an amount from a whole text, in the notation of grammar options: a sign, then `inf`,
`infinity` or `nan` in any case, or digits with an optional point anywhere and an optional power
of ten. -/
def readAmount? (text : String) : Option Amount :=
  let (negative, unsigned) := match text.toList with
    | '-' :: rest => (true, rest)
    | '+' :: rest => (false, rest)
    | rest => (false, rest)
  let named := asciiLower unsigned
  if named == "inf".toList || named == "infinity".toList then
    some (.known (if negative then -1.0 / 0.0 else 1.0 / 0.0))
  else if named == "nan".toList then some (.undefined negative)
  else
    let (whole, afterWhole) := spanDigits unsigned
    let (fraction, afterFraction) := match afterWhole with
      | '.' :: rest => spanDigits rest
      | rest => ([], rest)
    if whole.isEmpty && fraction.isEmpty then none
    else match readPower? afterFraction with
      | some (power, []) => some (.known (Numeral.toFloat ⟨negative, whole, some fraction, power⟩))
      | _ => none

end QueryGrammar.Decimal
