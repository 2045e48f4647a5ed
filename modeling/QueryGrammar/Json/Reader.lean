import QueryGrammar.Json.Basic

namespace QueryGrammar.Json

open Decimal

/-! Reading JSON text, strictly: one value with nothing but white space around it. -/

def isSpace (c : Char) : Bool :=
  c == ' ' || c == '\n' || c == '\t' || c == '\r'

def skipSpace (text : List Char) : List Char :=
  text.dropWhile isSpace

/-- What one element of a string token stands for: a character, or half of a surrogate pair. -/
inductive Piece where
  | char (c : Char)
  | half (unit : Nat)

def hexValue? (c : Char) : Option Nat :=
  if '0' ≤ c && c ≤ '9' then some (c.toNat - 48)
  else if 'a' ≤ c && c ≤ 'f' then some (c.toNat - 87)
  else if 'A' ≤ c && c ≤ 'F' then some (c.toNat - 55)
  else none

def unit? (a b c d : Char) : Option Nat := do
  let a ← hexValue? a
  let b ← hexValue? b
  let c ← hexValue? c
  let d ← hexValue? d
  some (((a * 16 + b) * 16 + c) * 16 + d)

def Piece.ofUnit (unit : Nat) : Piece :=
  if 0xd800 ≤ unit && unit < 0xe000 then .half unit else .char (Char.ofNat unit)

def shortEscape? : Char → Option Char
  | '"' => some '"'
  | '\\' => some '\\'
  | '/' => some '/'
  | 'b' => some '\x08'
  | 'f' => some '\x0c'
  | 'n' => some '\n'
  | 'r' => some '\r'
  | 't' => some '\t'
  | _ => none

/-- Reads a string token after its opening quote; `before` holds its elements so far, the last
first. -/
def readPieces (before : List Piece) : List Char → Option (List Piece × List Char)
  | [] => none
  | '"' :: rest => some (before.reverse, rest)
  | '\\' :: 'u' :: a :: b :: c :: d :: rest =>
      match unit? a b c d with
      | some unit => readPieces (Piece.ofUnit unit :: before) rest
      | none => none
  | '\\' :: c :: rest =>
      match shortEscape? c with
      | some meant => readPieces (.char meant :: before) rest
      | none => none
  | c :: rest => if c.toNat < 0x20 then none else readPieces (.char c :: before) rest

/-- The characters of a string token, where a high half is followed by a low one. -/
def join : List Piece → Option (List Char)
  | [] => some []
  | .char c :: rest => (join rest).map (c :: ·)
  | .half high :: .half low :: rest =>
      if high < 0xdc00 && 0xdc00 ≤ low then
        (join rest).map (Char.ofNat (0x10000 + (high - 0xd800) * 0x400 + (low - 0xdc00)) :: ·)
      else none
  | .half _ :: _ => none

def readString (text : List Char) : Option (Option String × List Char) :=
  match readPieces [] text with
  | some (pieces, rest) => some ((join pieces).map String.ofList, rest)
  | none => none

/-- The digits before the point: a single zero, or any digits that do not start with one. -/
def readWhole (text : List Char) : Option (List Char × List Char) :=
  match text with
  | '0' :: rest => some (['0'], rest)
  | _ =>
      match spanDigits text with
      | ([], _) => none
      | found => some found

def readFraction (text : List Char) : Option (Option (List Char) × List Char) :=
  match text with
  | '.' :: rest =>
      match spanDigits rest with
      | ([], _) => none
      | (digits, tail) => some (some digits, tail)
  | _ => some (none, text)

def readNumeral (text : List Char) : Option (Numeral × List Char) :=
  let (negative, unsigned) := match text with
    | '-' :: rest => (true, rest)
    | _ => (false, text)
  match readWhole unsigned with
  | none => none
  | some (whole, afterWhole) =>
      match readFraction afterWhole with
      | none => none
      | some (fraction, afterFraction) =>
          match readPower? afterFraction with
          | none => none
          | some (power, rest) => some (⟨negative, whole, fraction, power⟩, rest)

mutual

def readValue : Nat → List Char → Option (Json × List Char)
  | 0, _ => none
  | fuel + 1, text =>
      match skipSpace text with
      | '{' :: rest =>
          match skipSpace rest with
          | '}' :: tail => some (.object [], tail)
          | inside =>
              match readMembers fuel inside with
              | some (members, tail) => some (.object members, tail)
              | none => none
      | '[' :: rest =>
          match skipSpace rest with
          | ']' :: tail => some (.array [], tail)
          | inside =>
              match readItems fuel inside with
              | some (items, tail) => some (.array items, tail)
              | none => none
      | '"' :: rest =>
          match readString rest with
          | some (content, tail) => some (.string content, tail)
          | none => none
      | 'n' :: 'u' :: 'l' :: 'l' :: tail => some (.null, tail)
      | 't' :: 'r' :: 'u' :: 'e' :: tail => some (.bool true, tail)
      | 'f' :: 'a' :: 'l' :: 's' :: 'e' :: tail => some (.bool false, tail)
      | other =>
          match readNumeral other with
          | some (numeral, tail) => some (.number numeral, tail)
          | none => none

def readItems : Nat → List Char → Option (List Json × List Char)
  | 0, _ => none
  | fuel + 1, text =>
      match readValue fuel text with
      | none => none
      | some (item, rest) =>
          match skipSpace rest with
          | ']' :: tail => some ([item], tail)
          | ',' :: more =>
              match readItems fuel more with
              | some (items, tail) => some (item :: items, tail)
              | none => none
          | _ => none

def readMembers : Nat → List Char → Option (List (Option String × Json) × List Char)
  | 0, _ => none
  | fuel + 1, text =>
      match skipSpace text with
      | '"' :: opened =>
          match readString opened with
          | none => none
          | some (key, named) =>
              match skipSpace named with
              | ':' :: valued =>
                  match readValue fuel valued with
                  | none => none
                  | some (value, rest) =>
                      match skipSpace rest with
                      | '}' :: tail => some ([(key, value)], tail)
                      | ',' :: more =>
                          match readMembers fuel more with
                          | some (members, tail) => some ((key, value) :: members, tail)
                          | none => none
                      | _ => none
              | _ => none
      | _ => none

end

/-- Reads a whole text. Every step of the recursion but one in two takes a character, so the fuel
never runs out. -/
def read? (text : String) : Option Json :=
  let chars := text.toList
  match readValue (2 * chars.length + 2) chars with
  | some (json, rest) => if (skipSpace rest).isEmpty then some json else none
  | none => none

end QueryGrammar.Json
