import QueryGrammar.Toml.Scalar

namespace QueryGrammar.Toml

/-! Reading TOML documents. -/

/-- Keys with more parts, and values that are nested deeper, are refused. -/
def deepest : Nat := 79

def isBareKeyChar (c : Char) : Bool :=
  c.isAlphanum || c == '-' || c == '_'

def readSimpleKey (text : List Char) : Option (String × List Char) :=
  match text with
  | '"' :: rest => readBasic [] rest
  | '\'' :: rest => readLiteral [] rest
  | _ =>
      match text.takeWhile isBareKeyChar with
      | [] => none
      | name => some (String.ofList name, text.dropWhile isBareKeyChar)

/-- Reads the parts of a key and the white space around them. -/
def readKeyParts : Nat → List Char → Option (List String × List Char)
  | 0, _ => none
  | fuel + 1, text =>
      match readSimpleKey (skipSpace text) with
      | none => none
      | some (first, rest) =>
          match skipSpace rest with
          | '.' :: more =>
              match readKeyParts fuel more with
              | some (parts, tail) => some (first :: parts, tail)
              | none => none
          | tail => some ([first], tail)

/-- A key is a path and the name at its end. -/
structure Key where
  path : List String
  name : String

def readKey (text : List Char) : Option (Key × List Char) :=
  match readKeyParts deepest text with
  | some (parts, rest) => parts.getLast?.map fun name => (⟨parts.dropLast, name⟩, rest)
  | none => none

/-- Reads a key and the equals sign behind it. -/
def readKeyOfValue (text : List Char) : Option (Key × List Char) :=
  match readKey text with
  | some (key, '=' :: rest) => some (key, skipSpace rest)
  | _ => none

mutual

/-- Reads a value that may be nested so many levels deep. -/
def readValue : Nat → Nat → List Char → Option (Toml × List Char)
  | 0, _, _ => none
  | fuel + 1, levels, text =>
      match text with
      | '[' :: rest =>
          match levels, skipLines? rest.length rest with
          | inner + 1, some inside =>
              match readItems fuel inner inside with
              | some (items, tail) => some (.array items, tail)
              | none => none
          | _, _ => none
      | '\x7b' :: rest =>
          match levels with
          | 0 => none
          | inner + 1 =>
              match skipSpace rest with
              | '\x7d' :: tail => some (.table .braces [], tail)
              | _ => readMembers fuel inner (.table .braces []) rest
      | 't' :: 'r' :: 'u' :: 'e' :: tail => some (.bool true, tail)
      | 'f' :: 'a' :: 'l' :: 's' :: 'e' :: tail => some (.bool false, tail)
      | c :: _ =>
          if c == '"' || c == '\'' then
            match readString text with
            | some (content, tail) => some (.string content, tail)
            | none => none
          else readDateOrNumber text
      | [] => none

/-- Reads the items of an array up to its end. A comma may stand behind the last one. -/
def readItems : Nat → Nat → List Char → Option (List Toml × List Char)
  | 0, _, _ => none
  | _ + 1, _, ']' :: tail => some ([], tail)
  | fuel + 1, levels, text =>
      match readValue fuel levels text with
      | none => none
      | some (item, rest) =>
          match skipLines? rest.length rest with
          | some (']' :: tail) => some ([item], tail)
          | some (',' :: more) =>
              match skipLines? more.length more with
              | none => none
              | some next =>
                  match readItems fuel levels next with
                  | some (items, tail) => some (item :: items, tail)
                  | none => none
          | _ => none

/-- Reads the definitions between braces, of which there is at least one more. -/
def readMembers : Nat → Nat → Toml → List Char → Option (Toml × List Char)
  | 0, _, _, _ => none
  | fuel + 1, levels, target, text =>
      match readKeyOfValue text with
      | none => none
      | some (key, valued) =>
          match readValue fuel levels valued with
          | none => none
          | some (value, rest) =>
              match target.define key.path key.name value with
              | none => none
              | some target =>
                  match skipSpace rest with
                  | '\x7d' :: tail => some (target, tail)
                  | ',' :: more => readMembers fuel levels target more
                  | _ => none

end

/-- Reads a header behind its opening brackets. -/
def readHeader (isSeries : Bool) (draft : Draft) (text : List Char) : Option (Draft × List Char) := do
  let (key, rest) ← readKey text
  let rest ← match isSeries, rest with
    | true, ']' :: ']' :: rest => some rest
    | false, ']' :: rest => some rest
    | _, _ => none
  let rest ← lineEnd? rest
  let draft ← draft.enter isSeries key.path key.name
  some (draft, rest)

/-- Reads a line that defines a key. A value may go on over further lines. -/
def readDefinition (draft : Draft) (text : List Char) : Option (Draft × List Char) := do
  let (key, valued) ← readKeyOfValue text
  let (value, rest) ← readValue (2 * valued.length + 2) deepest valued
  let rest ← lineEnd? rest
  let draft ← draft.define key.path key.name value
  some (draft, rest)

def readLine (draft : Draft) (text : List Char) : Option (Draft × List Char) :=
  match text with
  | '#' :: _ => (lineEnd? text).map fun rest => (draft, rest)
  | '[' :: '[' :: rest => readHeader true draft rest
  | '[' :: rest => readHeader false draft rest
  | _ =>
      match newline? text with
      | some rest => some (draft, rest)
      | none => readDefinition draft text

/-- Reads lines up to the end of the text. -/
def readLines : Nat → Draft → List Char → Option Toml
  | 0, _, _ => none
  | fuel + 1, draft, text =>
      match skipSpace text with
      | [] => some draft.root
      | line =>
          match readLine draft line with
          | some (draft, rest) => readLines fuel draft rest
          | none => none

/-- Reads a whole document. Every line takes at least one character, so the fuel never runs
out. -/
def read? (text : String) : Option Toml :=
  let chars := match text.toList with
    | '\ufeff' :: rest => rest
    | chars => chars
  readLines (chars.length + 1) .empty chars

end QueryGrammar.Toml
