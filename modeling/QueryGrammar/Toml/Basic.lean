namespace QueryGrammar

/-! TOML documents, and the rules by which their tables grow.

A table is opened by a header, by a key with dots or by braces.  What may be added to it later
depends on which of them it was; nothing is ever defined twice.
-/

namespace Toml

/-- What opened a table. -/
inductive Origin where
  /-- A header of its own. -/
  | header
  /-- The header of a table inside it. -/
  | path
  /-- A key with dots. -/
  | dotted
  /-- Braces. -/
  | braces
deriving DecidableEq, Repr

end Toml

inductive Toml where
  | string (content : String)
  | integer (value : Int)
  | float (value : Float)
  | bool (value : Bool)
  | date
  | array (items : List Toml)
  /-- The tables under a header in double brackets. -/
  | series (tables : List Toml)
  | table (origin : Toml.Origin) (entries : List (String × Toml))

namespace Toml

instance : Inhabited Toml := ⟨.date⟩

def valueOf? (key : String) : List (String × Toml) → Option Toml
  | [] => none
  | (present, value) :: rest => if present = key then some value else valueOf? key rest

/-- Gives a key a value, in its place or behind the others. -/
def setValue (key : String) (value : Toml) : List (String × Toml) → List (String × Toml)
  | [] => [(key, value)]
  | (present, old) :: rest =>
      if present = key then (key, value) :: rest else (present, old) :: setValue key value rest

theorem valueOf?_setValue (key other : String) (value : Toml) (entries : List (String × Toml)) :
    valueOf? other (setValue key value entries) =
      if key = other then some value else valueOf? other entries := by
  induction entries with
  | nil => rfl
  | cons first rest step =>
      obtain ⟨present, old⟩ := first
      by_cases here : present = key
      · subst here
        by_cases same : present = other <;> simp [setValue, valueOf?, same]
      · by_cases same : present = other
        · subst same
          simp [setValue, valueOf?, here, Ne.symm here]
        · simp [setValue, valueOf?, here, same, step]

/-- How the tables on the way to a place are named. -/
inductive Route where
  /-- By a header. -/
  | header
  /-- By a key with dots. -/
  | dotted
deriving DecidableEq, Repr

def Route.origin : Route → Origin
  | .header => .path
  | .dotted => .dotted

/-- Whether a route may pass through a table. No route enters braces, and keys with dots do not
enter a table that has its own header. -/
def Route.passes : Route → Origin → Bool
  | _, .braces => false
  | .dotted, .header => false
  | _, _ => true

/-- Changes the table at the end of a path. Tables on the way that are missing are opened, and of
a series the last table is taken. -/
def descend (route : Route) (change : Toml → Option Toml) : List String → Toml → Option Toml
  | [], target => change target
  | key :: path, .table origin entries =>
      let changed :=
        match valueOf? key entries with
        | none => descend route change path (.table route.origin [])
        | some (.table inner within) =>
            if route.passes inner then descend route change path (.table inner within) else none
        | some (.series tables) =>
            match tables.getLast? with
            | some last =>
                (descend route change path last).map fun changed =>
                  .series (tables.dropLast ++ [changed])
            | none => none
        | some _ => none
      changed.map fun value => .table origin (setValue key value entries)
  | _ :: _, _ => none

/-- Adds a new key to a table. Keys with dots add only to tables that such keys opened. -/
def addKey (isDotted : Bool) (key : String) (value : Toml) : Toml → Option Toml
  | .table origin entries =>
      if (origin == .dotted) != isDotted then none
      else if (valueOf? key entries).isSome then none
      else some (.table origin (entries ++ [(key, value)]))
  | _ => none

/-- Adds what a line or an item between braces defines. -/
def define (target : Toml) (path : List String) (key : String) (value : Toml) : Option Toml :=
  descend .dotted (addKey (!path.isEmpty) key value) path target

/-- Opens the table of a header. It may be there if only headers of its inner tables named it. -/
def openTable (key : String) : Toml → Option Toml
  | .table origin entries =>
      match valueOf? key entries with
      | none => some (.table origin (setValue key (.table .header []) entries))
      | some (.table .path within) =>
          some (.table origin (setValue key (.table .header within) entries))
      | some _ => none
  | _ => none

/-- Opens the next table of a series. -/
def openSeries (key : String) : Toml → Option Toml
  | .table origin entries =>
      match valueOf? key entries with
      | none => some (.table origin (setValue key (.series [.table .header []]) entries))
      | some (.series tables) =>
          some (.table origin (setValue key (.series (tables ++ [.table .header []])) entries))
      | some _ => none
  | _ => none

/-- A document so far, and the table that lines are added to. -/
structure Draft where
  root : Toml
  place : List String

namespace Draft

def empty : Draft := ⟨.table .header [], []⟩

/-- Moves on to the table of a header. -/
def enter (draft : Draft) (isSeries : Bool) (path : List String) (key : String) : Option Draft :=
  let change := if isSeries then openSeries key else openTable key
  (descend .header change path draft.root).map fun root => ⟨root, path ++ [key]⟩

/-- Adds what a line defines. -/
def define (draft : Draft) (path : List String) (key : String) (value : Toml) : Option Draft :=
  let change := fun target => Toml.define target path key value
  (descend .header change draft.place draft.root).map fun root => { draft with root }

end Draft

end Toml

end QueryGrammar
