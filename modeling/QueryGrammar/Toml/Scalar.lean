import QueryGrammar.Decimal.Numeral
import QueryGrammar.Json.Reader
import QueryGrammar.Toml.Basic

namespace QueryGrammar.Toml

open Decimal

/-! Reading the smallest parts of TOML: white space, strings, numbers and dates.

A reader returns what it read and the text that is left, or nothing if the text breaks a rule.
-/

def isSpace (c : Char) : Bool :=
  c == ' ' || c == '\t'

def skipSpace (text : List Char) : List Char :=
  text.dropWhile isSpace

/-- Characters that comments and strings may hold as they are: all but controls, and tabs. -/
def isPlain (c : Char) : Bool :=
  c == '\t' || (0x20 ≤ c.toNat && c.toNat ≠ 0x7f)

/-- The text after a line break. -/
def newline? : List Char → Option (List Char)
  | '\n' :: rest => some rest
  | '\r' :: '\n' :: rest => some rest
  | _ => none

/-- The text after the comment that starts here, if one does. -/
def skipComment : List Char → List Char
  | '#' :: rest => rest.dropWhile isPlain
  | text => text

/-- The text after the rest of a line on which nothing but a comment may follow. -/
def lineEnd? (text : List Char) : Option (List Char) :=
  match skipComment (skipSpace text) with
  | [] => some []
  | rest => newline? rest

/-- The text after white space, comments and line breaks. A comment ends with its line. -/
def skipLines? : Nat → List Char → Option (List Char)
  | 0, text => some text
  | fuel + 1, text =>
      match skipSpace text with
      | '#' :: rest =>
          match newline? (skipComment ('#' :: rest)) with
          | some next => skipLines? fuel next
          | none => none
      | rest =>
          match newline? rest with
          | some next => skipLines? fuel next
          | none => if rest.head? == some '\r' then none else some rest

/-! ## Strings -/

def shortEscape? : Char → Option Char
  | 'b' => some '\x08'
  | 't' => some '\t'
  | 'n' => some '\n'
  | 'f' => some '\x0c'
  | 'r' => some '\r'
  | '"' => some '"'
  | '\\' => some '\\'
  | _ => none

def hexValue? : List Char → Option Nat
  | [] => some 0
  | c :: rest =>
      match Json.hexValue? c, hexValue? rest with
      | some digit, some value => some (digit * Nat.pow 16 rest.length + value)
      | _, _ => none

/-- The character that hexadecimal digits number, if there is one. -/
def scalar? (digits : List Char) : Option Char :=
  match hexValue? digits with
  | some n => if n < 0xd800 || (0xe000 ≤ n && n < 0x110000) then some (Char.ofNat n) else none
  | none => none

/-- Reads a string in double quotes after the first; `before` holds its characters so far, the
last first. -/
def readBasic (before : List Char) : List Char → Option (String × List Char)
  | [] => none
  | '"' :: rest => some (String.ofList before.reverse, rest)
  | '\\' :: 'u' :: a :: b :: c :: d :: rest =>
      match scalar? [a, b, c, d] with
      | some meant => readBasic (meant :: before) rest
      | none => none
  | '\\' :: 'U' :: a :: b :: c :: d :: e :: f :: g :: h :: rest =>
      match scalar? [a, b, c, d, e, f, g, h] with
      | some meant => readBasic (meant :: before) rest
      | none => none
  | '\\' :: c :: rest =>
      match shortEscape? c with
      | some meant => readBasic (meant :: before) rest
      | none => none
  | c :: rest => if isPlain c then readBasic (c :: before) rest else none

/-- Whether only white space is left of a line. -/
def endsLine (text : List Char) : Bool :=
  (newline? (skipSpace text)).isSome

/-- Reads a string in three double quotes after the first three. A backslash at the end of a line
joins the line to the next word; white space is skipped while `joining`. -/
def readLongBasic (joining : Bool) (before : List Char) : List Char → Option (String × List Char)
  | [] => none
  | '"' :: '"' :: '"' :: '"' :: '"' :: rest =>
      some (String.ofList ('"' :: '"' :: before).reverse, rest)
  | '"' :: '"' :: '"' :: '"' :: rest => some (String.ofList ('"' :: before).reverse, rest)
  | '"' :: '"' :: '"' :: rest => some (String.ofList before.reverse, rest)
  | '\r' :: '\n' :: rest => readLongBasic joining (if joining then before else '\n' :: before) rest
  | '\n' :: rest => readLongBasic joining (if joining then before else '\n' :: before) rest
  | '\\' :: 'u' :: a :: b :: c :: d :: rest =>
      match scalar? [a, b, c, d] with
      | some meant => readLongBasic false (meant :: before) rest
      | none => none
  | '\\' :: 'U' :: a :: b :: c :: d :: e :: f :: g :: h :: rest =>
      match scalar? [a, b, c, d, e, f, g, h] with
      | some meant => readLongBasic false (meant :: before) rest
      | none => none
  | '\\' :: c :: rest =>
      if endsLine (c :: rest) then readLongBasic true before (c :: rest)
      else match shortEscape? c with
        | some meant => readLongBasic false (meant :: before) rest
        | none => none
  | c :: rest =>
      if joining && isSpace c then readLongBasic true before rest
      else if isPlain c then readLongBasic false (c :: before) rest
      else none

/-- Reads a string in single quotes after the first. -/
def readLiteral (before : List Char) : List Char → Option (String × List Char)
  | [] => none
  | '\'' :: rest => some (String.ofList before.reverse, rest)
  | c :: rest => if isPlain c then readLiteral (c :: before) rest else none

/-- Reads a string in three single quotes after the first three. -/
def readLongLiteral (before : List Char) : List Char → Option (String × List Char)
  | [] => none
  | '\'' :: '\'' :: '\'' :: '\'' :: '\'' :: rest =>
      some (String.ofList ('\'' :: '\'' :: before).reverse, rest)
  | '\'' :: '\'' :: '\'' :: '\'' :: rest => some (String.ofList ('\'' :: before).reverse, rest)
  | '\'' :: '\'' :: '\'' :: rest => some (String.ofList before.reverse, rest)
  | '\r' :: '\n' :: rest => readLongLiteral ('\n' :: before) rest
  | '\n' :: rest => readLongLiteral ('\n' :: before) rest
  | c :: rest => if isPlain c then readLongLiteral (c :: before) rest else none

/-- A line break right behind the opening quotes does not count. -/
def skipFirstBreak (text : List Char) : List Char :=
  (newline? text).getD text

def readString : List Char → Option (String × List Char)
  | '"' :: '"' :: '"' :: rest => readLongBasic false [] (skipFirstBreak rest)
  | '"' :: rest => readBasic [] rest
  | '\'' :: '\'' :: '\'' :: rest => readLongLiteral [] (skipFirstBreak rest)
  | '\'' :: rest => readLiteral [] rest
  | _ => none

/-! ## Numbers -/

/-- Reads digits after the first, where an underscore may stand before each. -/
def readMoreDigits (isDigit : Char → Bool) : List Char → Option (List Char × List Char)
  | '_' :: c :: rest =>
      if isDigit c then
        match readMoreDigits isDigit rest with
        | some (digits, tail) => some (c :: digits, tail)
        | none => none
      else none
  | '_' :: [] => none
  | c :: rest =>
      if isDigit c then
        match readMoreDigits isDigit rest with
        | some (digits, tail) => some (c :: digits, tail)
        | none => none
      else some ([], c :: rest)
  | [] => some ([], [])

def readDigits (isDigit : Char → Bool) : List Char → Option (List Char × List Char)
  | c :: rest =>
      if isDigit c then
        match readMoreDigits isDigit rest with
        | some (digits, tail) => some (c :: digits, tail)
        | none => none
      else none
  | [] => none

def readSign : List Char → Bool × List Char
  | '-' :: rest => (true, rest)
  | '+' :: rest => (false, rest)
  | text => (false, text)

/-- Reads the digits before a point. A zero stands alone. -/
def readWhole : List Char → Option (List Char × List Char)
  | '0' :: rest => some (['0'], rest)
  | text => readDigits isDigit text

def readFraction : List Char → Option (Option (List Char) × List Char)
  | '.' :: rest => (readDigits isDigit rest).map fun (digits, tail) => (some digits, tail)
  | text => some (none, text)

/-- Reads an optional power of ten. -/
def readExponent : List Char → Option (Option (Bool × List Char) × List Char)
  | c :: rest =>
      if c == 'e' || c == 'E' then
        let (negative, unsigned) := readSign rest
        (readDigits isDigit unsigned).map fun (digits, tail) => (some (negative, digits), tail)
      else some (none, c :: rest)
  | [] => some (none, [])

/-- Integers have 64 bits. -/
def integer? (value : Int) : Option Toml :=
  if -0x8000000000000000 ≤ value ∧ value < 0x8000000000000000 then some (.integer value) else none

/-- A number that is too large is refused if it is positive. -/
def float? (value : Float) : Option Toml :=
  if value == 1.0 / 0.0 then none else some (.float value)

def readDecimal (text : List Char) : Option (Toml × List Char) := do
  let (negative, unsigned) := readSign text
  let (whole, afterWhole) ← readWhole unsigned
  let (fraction, afterFraction) ← readFraction afterWhole
  let (power, rest) ← readExponent afterFraction
  let value ← match fraction, power with
    | none, none =>
        let size : Int := valueOfDigits whole
        integer? (if negative then -size else size)
    | _, _ => float? (Numeral.toFloat ⟨negative, whole, fraction, power⟩)
  some (value, rest)

/-- Reads the digits of an integer in another base. -/
def readInBase (base : Nat) (text : List Char) : Option (Toml × List Char) := do
  let isDigit := fun c => ((Json.hexValue? c).filter (· < base)).isSome
  let (digits, rest) ← readDigits isDigit text
  let value := digits.foldl (fun value c => value * base + (Json.hexValue? c).getD 0) 0
  let value ← integer? value
  some (value, rest)

def readNumber (text : List Char) : Option (Toml × List Char) :=
  match text with
  | '0' :: 'x' :: rest => readInBase 16 rest
  | '0' :: 'o' :: rest => readInBase 8 rest
  | '0' :: 'b' :: rest => readInBase 2 rest
  | _ =>
      let (negative, unsigned) := readSign text
      match unsigned with
      | 'i' :: 'n' :: 'f' :: rest =>
          some (.float (if negative then -1.0 / 0.0 else 1.0 / 0.0), rest)
      | 'n' :: 'a' :: 'n' :: rest => some (.float (0.0 / 0.0), rest)
      | _ => readDecimal text

/-! ## Dates and times -/

/-- Reads two digits that make a number in a range. -/
def readPair (least most : Nat) : List Char → Option (Nat × List Char)
  | a :: b :: rest =>
      let value := valueOfDigits [a, b]
      if isDigit a && isDigit b && least ≤ value && value ≤ most then some (value, rest) else none
  | _ => none

def readMark (mark : Char) : List Char → Option (List Char)
  | c :: rest => if c = mark then some rest else none
  | [] => none

def daysIn (year month : Nat) : Nat :=
  if month = 2 then
    if year % 4 = 0 ∧ (year % 100 ≠ 0 ∨ year % 400 = 0) then 29 else 28
  else if month = 4 ∨ month = 6 ∨ month = 9 ∨ month = 11 then 30
  else 31

/-- Reads a time of day behind its hour. -/
def readTimeAfterHour (text : List Char) : Option (List Char) := do
  let text ← readMark ':' text
  let (_, text) ← readPair 0 59 text
  let text ← readMark ':' text
  let (_, text) ← readPair 0 60 text
  match text with
  | '.' :: c :: rest => some (if isDigit c then rest.dropWhile isDigit else text)
  | _ => some text

/-- Reads a distance from universal time, if there is one. -/
def readOffset (text : List Char) : Option (List Char) :=
  match text with
  | c :: rest =>
      if c == 'Z' || c == 'z' then some rest
      else if c == '+' || c == '-' then do
        let (_, rest) ← readPair 0 23 rest
        let rest ← readMark ':' rest
        let (_, rest) ← readPair 0 59 rest
        some rest
      else some text
  | [] => some []

/-- Reads the time that may follow a date. -/
def readTimeOfDate (text : List Char) : Option (List Char) :=
  match text with
  | c :: rest =>
      if c == 'T' || c == 't' || c == ' ' then
        match readPair 0 23 rest with
        | some (_, ':' :: tail) =>
            match readTimeAfterHour (':' :: tail) with
            | some tail => readOffset tail
            | none => none
        | _ => some text
      else some text
  | [] => some []

/-- Reads a date behind its year. -/
def readDateAfterYear (year : Nat) (text : List Char) : Option (Toml × List Char) := do
  let text ← readMark '-' text
  let (month, text) ← readPair 1 12 text
  let text ← readMark '-' text
  let (_, text) ← readPair 1 (daysIn year month) text
  let text ← readTimeOfDate text
  some (.date, text)

/-- Reads what starts with a digit or a sign: four digits with a hyphen behind them are a year,
two with a colon are an hour, and anything else is a number. -/
def readDateOrNumber (text : List Char) : Option (Toml × List Char) :=
  match text with
  | a :: b :: ':' :: _ =>
      if isDigit a && isDigit b then do
        let (_, rest) ← readPair 0 23 text
        let rest ← readTimeAfterHour rest
        some (.date, rest)
      else readNumber text
  | a :: b :: c :: d :: '-' :: rest =>
      if [a, b, c, d].all isDigit then readDateAfterYear (valueOfDigits [a, b, c, d]) ('-' :: rest)
      else readNumber text
  | _ => readNumber text

end QueryGrammar.Toml
