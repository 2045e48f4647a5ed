import QueryGrammar.Meaning.Basic
import QueryGrammar.Rule.Wording

namespace QueryGrammar

/-! Rules: what a symbol may stand for, at what cost and with what meaning. -/

/-- The literal that matches no input. -/
def emptyLiteral : String := "<empty>"

inductive Role where
  | plain
  /-- Accepted, but displayed as the corrected text of its rule. -/
  | substitution
  /-- Accepted, and not displayed. -/
  | stopWord
  /-- Matches the entities of a category. -/
  | placeholder
deriving DecidableEq, Repr

/-- A symbol on the right of a rule, and the form it selects there. -/
structure Slot where
  symbol : String
  form : Option Form := none
deriving DecidableEq, Repr

inductive Production where
  /-- One or two symbols, in a valid rule. -/
  | symbols (slots : List Slot)
  | literal (text : String)
deriving DecidableEq, Repr

/-- Display text that is contributed without input. -/
structure Piece where
  wording : Wording
  form : Option Form := none
deriving DecidableEq, Repr

/-- What a derived rule puts in place of a symbol that its base rule has. -/
structure Insertion (κ : Type) where
  /-- Whether the text goes before the remaining symbol (0) or after it. -/
  index : Nat
  text : List Piece
  meaning : Option (Meaning κ) := none
  person : Option Person := none
deriving BEq

structure Rule (κ : Type) where
  production : Production
  cost : κ
  insertionCost : Option κ := none
  transpositionCost : Option κ := none
  meaning : Option (Meaning κ) := none
  wording : Option Wording := none
  person : Option Person := none
  role : Role := .plain
  /-- Keeps the symbols of this rule from being inserted. -/
  noInsert : Bool := false
  insertion : Option (Insertion κ) := none
  /-- Derived by swapping the two symbols of a base rule. -/
  transposed : Bool := false
deriving BEq

namespace Role

def label : Role → String
  | .plain => "plain"
  | .substitution => "substitution"
  | .stopWord => "stop-word"
  | .placeholder => "placeholder"

def ofLabel? : String → Option Role
  | "plain" => some .plain
  | "substitution" => some .substitution
  | "stop-word" => some .stopWord
  | "placeholder" => some .placeholder
  | _ => none

theorem ofLabel?_label (role : Role) : ofLabel? role.label = some role := by
  cases role <;> rfl

end Role

def Slot.text (slot : Slot) : String :=
  match slot.form with
  | none => slot.symbol
  | some form => slot.symbol ++ "[" ++ form.mark ++ "]"

namespace Production

def isLiteral : Production → Bool
  | .literal _ => true
  | .symbols _ => false

def slots : Production → List Slot
  | .symbols slots => slots
  | .literal _ => []

/-- Whether the production matches no input by itself. -/
def isEmptyLiteral : Production → Bool
  | .literal text => text == emptyLiteral
  | .symbols _ => false

/-- Whether two productions make the same rule: forms do not tell them apart. -/
def sameAs : Production → Production → Bool
  | .literal text, .literal other => text == other
  | .symbols slots, .symbols others => slots.map Slot.symbol == others.map Slot.symbol
  | _, _ => false

def text : Production → String
  | .literal text => "\"" ++ text ++ "\""
  | .symbols slots => String.intercalate " " (slots.map Slot.text)

end Production

namespace Rule

variable {κ : Type}

def literal [Cost κ] (text : String) : Rule κ :=
  { production := .literal text, cost := 0 }

def symbols [Cost κ] (names : List String) : Rule κ :=
  { production := .symbols (names.map fun name => { symbol := name }), cost := 0 }

def slots (rule : Rule κ) : List Slot :=
  rule.production.slots

def length (rule : Rule κ) : Nat :=
  match rule.production with
  | .symbols slots => slots.length
  | .literal _ => 1

def isLiteral (rule : Rule κ) : Bool :=
  rule.production.isLiteral

/-- Whether the rule was given rather than derived. -/
def isBase (rule : Rule κ) : Bool :=
  rule.insertion.isNone && !rule.transposed

/-- The form selected for a child, counted in the order of the input. -/
def formAt (rule : Rule κ) (index : Nat) : Option Form :=
  rule.slots[index]?.bind Slot.form

/-- What a rule on a literal displays. Stop words display nothing, and plain rules without text
display the literal itself. -/
def display (rule : Rule κ) : Option Wording :=
  if rule.role = .stopWord then none
  else match rule.wording, rule.production, rule.role with
    | some wording, _, _ => some wording
    | none, .literal text, .plain => if text == emptyLiteral then none else some (.fixed text)
    | none, _, _ => none

def text (rule : Rule κ) : String :=
  rule.production.text ++
    (match rule.meaning with
      | some meaning => " \x7b" ++ meaning.text ++ "\x7d"
      | none => "") ++
    (if rule.transposed then " (transposed)" else "") ++
    (if rule.insertion.isSome then " (insertion)" else "")

end Rule

end QueryGrammar
