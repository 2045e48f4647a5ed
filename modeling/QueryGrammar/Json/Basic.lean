import QueryGrammar.Decimal.Shortest

namespace QueryGrammar

open Decimal

/-! JSON values as they are written.

Numbers keep their digits and objects keep their members in order, repeated keys included.  What a
number or a string stands for is decided by whoever reads it.
-/

/-- A string token may escape half of a surrogate pair; its content is then `none`. -/
inductive Json where
  | null
  | bool (value : Bool)
  | number (numeral : Numeral)
  | string (content : Option String)
  | array (items : List Json)
  | object (members : List (Option String × Json))

namespace Json

instance : Inhabited Json := ⟨.null⟩

def text (content : String) : Json :=
  .string (some content)

def nat (n : Nat) : Json :=
  .number (Numeral.ofNat n)

/-- Infinite and undefined amounts have no numeral and become null. -/
def amount : Amount → Json
  | .undefined _ => .null
  | .known x =>
      match numeralOf? x with
      | some numeral => .number numeral
      | none => .null

def ofOption (encode : α → Json) : Option α → Json
  | some value => encode value
  | none => .null

def ofList (encode : α → Json) (values : List α) : Json :=
  .array (values.map encode)

def record (members : List (String × Json)) : Json :=
  .object (members.map fun (key, value) => (some key, value))

/-- A member that is left out when it has no value. -/
def optional (key : String) (encode : α → Json) : Option α → List (String × Json)
  | some value => [(key, encode value)]
  | none => []

end Json

end QueryGrammar
