import QueryGrammar.Data.Dictionary
import QueryGrammar.Json.Reader

namespace QueryGrammar.Json

open Decimal

/-! Reading typed values out of JSON.

A decoder is given the number of levels of nesting that may still be entered.  Values that no
decoder looks at may be nested to any depth.
-/

/-- The deepest nesting of a value that is read. -/
def deepest : Nat := 127

abbrev Decoder (α : Type) := Nat → Json → Option α

namespace Decoder

def text : Decoder String
  | _, .string content => content
  | _, _ => none

def bool : Decoder Bool
  | _, .bool value => some value
  | _, _ => none

/-- Natural numbers of up to 64 bits. -/
def nat : Decoder Nat
  | _, .number numeral => numeral.toNat?.filter (· < Nat.pow 2 64)
  | _, _ => none

/-- Numbers in the range of finite amounts. -/
def amount : Decoder Amount
  | _, .number numeral =>
      let x := numeral.toFloat
      if x.isFinite then some (.known x) else none
  | _, _ => none

def all (decode : Json → Option α) : List Json → Option (List α)
  | [] => some []
  | item :: rest =>
      match decode item, all decode rest with
      | some value, some values => some (value :: values)
      | _, _ => none

def list (decode : Decoder α) : Decoder (List α)
  | levels + 1, .array items => all (decode levels) items
  | _, _ => none

def allMembers (decode : Json → Option α) :
    List (Option String × Json) → Option (List (String × α))
  | [] => some []
  | (key, value) :: rest =>
      match key, decode value, allMembers decode rest with
      | some key, some value, some members => some ((key, value) :: members)
      | _, _, _ => none

/-- An object as a dictionary; of a repeated key the last value counts. -/
def dictionary (decode : Decoder α) : Decoder (Dictionary α)
  | levels + 1, .object members =>
      (allMembers (decode levels) members).map Dictionary.ofList
  | _, _ => none

def hasRepeats : List String → Bool
  | [] => false
  | key :: rest => rest.contains key || hasRepeats rest

def keysOf : List (Option String × Json) → Option (List String)
  | [] => some []
  | (some key, _) :: rest => (keysOf rest).map (key :: ·)
  | (none, _) :: _ => none

def memberOf? (key : String) : List (Option String × Json) → Option Json
  | [] => none
  | (present, value) :: rest => if present = some key then some value else memberOf? key rest

/-- The fields of a record, in the order of `names`. A record is an object whose other members do
not count and which has no field twice, or an array of its first fields in order. -/
def fields (names : List String) : Json → Option (List (Option Json))
  | .object members =>
      match keysOf members with
      | some keys =>
          if hasRepeats (keys.filter names.contains) then none
          else some (names.map (memberOf? · members))
      | none => none
  | .array items =>
      if names.length < items.length then none
      else some (items.map some ++ List.replicate (names.length - items.length) none)
  | _ => none

def record (names : List String) (build : Nat → List (Option Json) → Option α) : Decoder α
  | levels + 1, json =>
      match fields names json with
      | some found => build levels found
      | none => none
  | 0, _ => none

def required (decode : Decoder α) (levels : Nat) : Option Json → Option α
  | some json => decode levels json
  | none => none

/-- A field that may be missing or null. -/
def optional (decode : Decoder α) (levels : Nat) : Option Json → Option (Option α)
  | none | some .null => some none
  | some json => (decode levels json).map some

/-- A field that may be missing, but not null. -/
def defaulted (decode : Decoder α) (value : α) (levels : Nat) : Option Json → Option α
  | none => some value
  | some json => decode levels json

/-- A value of a type of named cases: the name of a case that holds nothing, alone or as the key
of null, or the name of a case as the only key of what it holds. -/
def variant (bare : String → Option α) (holding : Nat → String → Json → Option α) : Decoder α
  | _, .string (some name) => bare name
  | levels + 1, .object [(some name, content)] =>
      match content, bare name with
      | .null, some value => some value
      | _, some _ => none
      | content, none => holding levels name content
  | _, _ => none

/-- A type whose cases hold nothing. -/
def choice (bare : String → Option α) : Decoder α :=
  variant bare fun _ _ _ => none

end Decoder

def decode? (decoder : Decoder α) (text : String) : Option α :=
  match read? text with
  | some json => decoder deepest json
  | none => none

end QueryGrammar.Json
