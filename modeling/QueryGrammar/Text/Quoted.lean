import QueryGrammar.Text.Unprintable

namespace QueryGrammar.Text

/-! Quoted text, as messages show it: in double quotes, with a backslash before quotes and
backslashes, short forms for the common controls, and other characters that cannot be shown
written by number. -/

def hexDigit (n : Nat) : Char :=
  if n < 10 then Char.ofNat (48 + n) else Char.ofNat (87 + n)

/-- Hexadecimal digits of a number below `16 ^ places`, without leading zeros. -/
def hexDigits : Nat → Nat → List Char
  | 0, _ => []
  | places + 1, n =>
      if n < 16 then [hexDigit n] else hexDigits places (n / 16) ++ [hexDigit (n % 16)]

def isUnprintable (c : Char) : Bool :=
  if c.toNat < 0x7f then c.toNat < 0x20 else unprintableRanges.contains c

def quoteChar (c : Char) : List Char :=
  match c with
  | '"' => ['\\', '"']
  | '\\' => ['\\', '\\']
  | '\n' => ['\\', 'n']
  | '\r' => ['\\', 'r']
  | '\t' => ['\\', 't']
  | c =>
      if c.toNat = 0 then ['\\', '0']
      else if isUnprintable c then
        ['\\', 'u', '\x7b'] ++ hexDigits 8 c.toNat ++ ['\x7d']
      else [c]

def quoted (text : String) : String :=
  String.ofList (['"'] ++ text.toList.flatMap quoteChar ++ ['"'])

end QueryGrammar.Text
