namespace QueryGrammar

/-! Display text, fixed or inflected. -/

/-- The inflection that a rule selects for one of its children. -/
inductive Form where
  | nominative
  | objective
  | past
deriving DecidableEq, Repr

/-- Person and number of a subject, which the verbs after it follow. -/
inductive Person where
  | firstSingular
  | thirdSingular
  | plural
deriving DecidableEq, Repr

structure Inflections where
  firstSingular : Option String := none
  thirdSingular : Option String := none
  plural : Option String := none
  past : Option String := none
  nominative : Option String := none
  objective : Option String := none
deriving DecidableEq, Repr

inductive Wording where
  | fixed (text : String)
  | inflected (inflections : Inflections)
deriving DecidableEq, Repr

namespace Form

def label : Form → String
  | .nominative => "nom"
  | .objective => "obj"
  | .past => "past"

def ofLabel? : String → Option Form
  | "nom" => some .nominative
  | "obj" => some .objective
  | "past" => some .past
  | _ => none

/-- The form as rules show it. -/
def mark : Form → String
  | .nominative => "Nom"
  | .objective => "Obj"
  | .past => "Past"

theorem ofLabel?_label (form : Form) : ofLabel? form.label = some form := by
  cases form <;> rfl

end Form

namespace Person

def label : Person → String
  | .firstSingular => "one-sg"
  | .thirdSingular => "three-sg"
  | .plural => "pl"

def ofLabel? : String → Option Person
  | "one-sg" => some .firstSingular
  | "three-sg" => some .thirdSingular
  | "pl" => some .plural
  | _ => none

theorem ofLabel?_label (person : Person) : ofLabel? person.label = some person := by
  cases person <;> rfl

end Person

namespace Inflections

def form (inflections : Inflections) : Form → Option String
  | .nominative => inflections.nominative
  | .objective => inflections.objective
  | .past => inflections.past

def person (inflections : Inflections) : Person → Option String
  | .firstSingular => inflections.firstSingular
  | .thirdSingular => inflections.thirdSingular
  | .plural => inflections.plural

/-- The first inflection there is, in the order of the table. -/
def first (inflections : Inflections) : Option String :=
  inflections.firstSingular <|> inflections.thirdSingular <|> inflections.plural <|>
    inflections.past <|> inflections.nominative <|> inflections.objective

def isEmpty (inflections : Inflections) : Bool :=
  inflections.first.isNone

/-- The inflection for a form, else for a person, else the first one. -/
def resolve (inflections : Inflections) (form : Option Form) (person : Option Person) :
    Option String :=
  form.bind inflections.form <|> person.bind inflections.person <|> inflections.first

end Inflections

def Wording.resolve (wording : Wording) (form : Option Form) (person : Option Person) :
    Option String :=
  match wording with
  | .fixed text => some text
  | .inflected inflections => inflections.resolve form person

end QueryGrammar
