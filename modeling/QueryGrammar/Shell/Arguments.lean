import QueryGrammar.Shell.Value

namespace QueryGrammar.Shell

/-! Command-line arguments, told apart into switches and operands.

A switch has a long name, a short one or both, and may take a value.  Short switches can be joined
behind one hyphen; only the last of them can take a value, which may follow at once, behind an
equals sign or as the next argument.  Behind two hyphens there are only operands.
-/

structure Switch where
  name : String
  short : Option Char := none
  /-- Whether the name can be written out behind two hyphens. -/
  isLong : Bool := true
  /-- The kind of the value that it takes. -/
  value : Option ValueKind := none
deriving DecidableEq, Repr

def Switch.takesValue (switch : Switch) : Bool :=
  switch.value.isSome

inductive Argument where
  | flag (name : String)
  | option (name value : String)
  | operand (text : String)
deriving DecidableEq, Repr

def long? (switches : List Switch) (name : String) : Option Switch :=
  switches.find? fun switch => switch.isLong && switch.name == name

def short? (switches : List Switch) (letter : Char) : Option Switch :=
  switches.find? fun switch => switch.short == some letter

/-- Whether an argument cannot be the value of the switch before it. -/
def looksLikeSwitch (argument : String) : Bool :=
  match argument.toList with
  | '-' :: _ :: _ => true
  | _ => false

/-- The flag that ends the arguments. -/
def helpName : String := "help"

/-- What joined short switches stand for, and the last of them if its value is still to come. -/
def readCluster (switches : List Switch) : List Char → Option (List Argument × Option String)
  | [] => some ([], none)
  | letter :: rest =>
      match short? switches letter with
      | none => none
      | some switch =>
          if switch.name == helpName then some ([.flag helpName], none)
          else if switch.takesValue then
            match rest with
            | [] => some ([], some switch.name)
            | '=' :: value => some ([.option switch.name (String.ofList value)], none)
            | value => some ([.option switch.name (String.ofList value)], none)
          else
            match readCluster switches rest with
            | some (arguments, pending) => some (.flag switch.name :: arguments, pending)
            | none => none

/-- The name of a long switch and the value behind an equals sign. -/
def splitLong (body : List Char) : String × Option String :=
  match body.dropWhile (· != '=') with
  | '=' :: value => (String.ofList (body.takeWhile (· != '=')), some (String.ofList value))
  | _ => (String.ofList body, none)

def readLong (switches : List Switch) (body : List Char) :
    Option (List Argument × Option String) :=
  let (name, value) := splitLong body
  match long? switches name, value with
  | none, _ => none
  | some switch, none =>
      if switch.takesValue then some ([], some name) else some ([.flag name], none)
  | some switch, some value =>
      if switch.takesValue then some ([.option name value], none) else none

/-- What one argument stands for, and the switch whose value the next argument is. -/
def readArgument (switches : List Switch) (argument : String) :
    Option (List Argument × Option String) :=
  match argument.toList with
  | '-' :: '-' :: body => readLong switches body
  | '-' :: letter :: rest => readCluster switches (letter :: rest)
  | _ => some ([.operand argument], none)

/-- Tells arguments apart; `none` if they are misused. Behind the flag that asks for help, nothing is
read. -/
def readArguments (switches : List Switch) : Option String → List String → Option (List Argument)
  | none, [] => some []
  | some _, [] => none
  | some name, value :: rest =>
      if looksLikeSwitch value then none
      else (readArguments switches none rest).map (.option name value :: ·)
  | none, "--" :: rest => some (rest.map .operand)
  | none, argument :: rest =>
      match readArgument switches argument with
      | none => none
      | some (found, next) =>
          if found.contains (.flag helpName) then some found
          else (readArguments switches next rest).map (found ++ ·)

namespace Arguments

/-- Whether no switch is repeated. -/
def areDistinct : List Argument → Bool
  | [] => true
  | .operand _ :: rest => areDistinct rest
  | .flag name :: rest => !rest.contains (.flag name) && areDistinct rest
  | .option name _ :: rest =>
      !(rest.any fun
        | .option other _ => other == name
        | _ => false) && areDistinct rest

def hasFlag (arguments : List Argument) (name : String) : Bool :=
  arguments.contains (.flag name)

def value? (name : String) : List Argument → Option String
  | [] => none
  | .option present value :: rest => if present = name then some value else value? name rest
  | _ :: rest => value? name rest

def operands (arguments : List Argument) : List String :=
  arguments.filterMap fun
    | .operand text => some text
    | _ => none

/-- Whether the values of switches are of the kinds that they take. -/
def haveValues (switches : List Switch) (arguments : List Argument) : Bool :=
  arguments.all fun
    | .option name text =>
        switches.any fun switch => switch.name == name && switch.value.any (·.accepts text)
    | _ => true

end Arguments

/-- How a command is used. -/
structure Usage where
  switches : List Switch
  /-- How many operands come first that are paths. -/
  paths : Nat
  /-- Whether any operands may follow them. -/
  takesWords : Bool := false
deriving DecidableEq, Repr

/-- Whether there are no more operands than the usage has room for, and paths in the first
places. -/
def Usage.hasRoomFor (usage : Usage) (operands : List String) : Bool :=
  (operands.take usage.paths).all ValueKind.path.accepts &&
    (usage.takesWords || operands.length ≤ usage.paths)

/-- Whether arguments are in order, though some may be missing. -/
def Usage.admits (usage : Usage) (arguments : List Argument) : Bool :=
  Arguments.areDistinct arguments && Arguments.haveValues usage.switches arguments &&
    usage.hasRoomFor (Arguments.operands arguments)

end QueryGrammar.Shell
