import QueryGrammar.Json.Basic
import QueryGrammar.Text.Quoted

namespace QueryGrammar.Json

/-! Writing JSON, on one line or indented by two spaces a level. -/

def escapeChar (c : Char) : List Char :=
  match c with
  | '"' => ['\\', '"']
  | '\\' => ['\\', '\\']
  | '\n' => ['\\', 'n']
  | '\r' => ['\\', 'r']
  | '\t' => ['\\', 't']
  | '\x08' => ['\\', 'b']
  | '\x0c' => ['\\', 'f']
  | c =>
      if c.toNat < 0x20 then
        ['\\', 'u', '0', '0', Text.hexDigit (c.toNat / 16), Text.hexDigit (c.toNat % 16)]
      else [c]

def writeText (content : String) : List Char :=
  '"' :: content.toList.flatMap escapeChar ++ ['"']

/-- A string without content is written as an escaped half of a pair. -/
def writeString : Option String → List Char
  | some content => writeText content
  | none => ['"', '\\', 'u', 'd', '8', '0', '0', '"']

mutual

def write : Json → List Char
  | .null => ['n', 'u', 'l', 'l']
  | .bool true => ['t', 'r', 'u', 'e']
  | .bool false => ['f', 'a', 'l', 's', 'e']
  | .number numeral => numeral.render
  | .string content => writeString content
  | .array items => '[' :: writeItems items ++ [']']
  | .object members => '\x7b' :: writeMembers members ++ ['\x7d']

def writeItems : List Json → List Char
  | [] => []
  | [item] => write item
  | item :: rest => write item ++ ',' :: writeItems rest

def writeMembers : List (Option String × Json) → List Char
  | [] => []
  | [(key, value)] => writeString key ++ ':' :: write value
  | (key, value) :: rest => writeString key ++ ':' :: write value ++ ',' :: writeMembers rest

end

def compact (json : Json) : String :=
  String.ofList json.write

/-- Starts a line at a level. -/
def lineAt (level : Nat) : List Char :=
  '\n' :: List.replicate (2 * level) ' '

mutual

def layOut (level : Nat) : Json → List Char
  | .array (item :: items) =>
      '[' :: layOutItems (level + 1) (item :: items) ++ lineAt level ++ [']']
  | .object (member :: members) =>
      '\x7b' :: layOutMembers (level + 1) (member :: members) ++ lineAt level ++ ['\x7d']
  | .null => ['n', 'u', 'l', 'l']
  | .bool true => ['t', 'r', 'u', 'e']
  | .bool false => ['f', 'a', 'l', 's', 'e']
  | .number numeral => numeral.render
  | .string content => writeString content
  | .array [] => ['[', ']']
  | .object [] => ['\x7b', '\x7d']

def layOutItems (level : Nat) : List Json → List Char
  | [] => []
  | [item] => lineAt level ++ layOut level item
  | item :: rest => lineAt level ++ layOut level item ++ ',' :: layOutItems level rest

def layOutMembers (level : Nat) : List (Option String × Json) → List Char
  | [] => []
  | [(key, value)] => lineAt level ++ writeString key ++ ':' :: ' ' :: layOut level value
  | (key, value) :: rest =>
      lineAt level ++ writeString key ++ ':' :: ' ' :: layOut level value ++
        ',' :: layOutMembers level rest

end

def pretty (json : Json) : String :=
  String.ofList (json.layOut 0)

end QueryGrammar.Json
