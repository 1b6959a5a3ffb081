import EvmLift.Decompilation

/-!
# Requests on the command line

Arguments are read from left to right, and the first one that is wrong, or that asks
for the version, decides. A value is attached to its option or follows it, and a
separate value never looks like an option. Everything after `--` is code.
-/

namespace EvmLift.Command

/-- What the command is to do. What may be given once is absent until then. -/
structure Settings where
  /-- The code itself. -/
  code : Option String := none
  /-- The path of a file with the code. -/
  file : Option String := none
  view : Option View := none
  /-- The path of a file for the result. -/
  out : Option String := none
  noColor : Bool := false
  noSimplify : Bool := false
  version : Bool := false
  deriving Repr, DecidableEq

/-- What the arguments ask for. -/
inductive Request where
  /-- The version at once, whatever comes after. -/
  | version
  | run (settings : Settings)
  deriving Repr, DecidableEq

/-- Why arguments cannot be understood. -/
inductive UsageError where
  | unknown (argument : String)
  | repeated (name : String)
  | missingValue (name : String)
  | badValue (name value : String)
  | unwantedValue (argument : String)
  deriving Repr, DecidableEq

namespace UsageError

/-- The wording of an error. -/
def message : UsageError → String
  | .unknown argument => s!"unexpected argument {argument}"
  | .repeated name => s!"{name} is given more than once"
  | .missingValue name => s!"{name} needs a value"
  | .badValue name value => s!"{value} is no value for {name}"
  | .unwantedValue argument => s!"unexpected value in {argument}"

end UsageError

/-- The options with a value. -/
inductive Parameter where
  | file | mode | out
  deriving Repr, DecidableEq

/-- The options without a value. -/
inductive Flag where
  | noColor | noSimplify | version
  deriving Repr, DecidableEq

namespace Parameter

/-- How an option is written. -/
def name : Parameter → String
  | .file => "--file"
  | .mode => "--mode"
  | .out => "--out"

/-- The view that a mode shows. -/
def view? : String → Option View
  | "decompile" => some .pseudocode
  | "disassemble" => some .assembly
  | "json" => some .json
  | _ => none

end Parameter

namespace Flag

/-- How an option is written. -/
def name : Flag → String
  | .noColor => "--no-color"
  | .noSimplify => "--no-optimize"
  | .version => "--version-info"

end Flag

namespace Settings

/-- Set what may be given once. -/
def once {α : Type} (name : String) (value : α) : Option α → Except UsageError (Option α)
  | none => .ok (some value)
  | some _ => .error (.repeated name)

/-- Raise what may be raised once. -/
def raise (name : String) : Bool → Except UsageError Bool
  | false => .ok true
  | true => .error (.repeated name)

/-- Take the code from the command line. -/
def setCode (settings : Settings) (value : String) : Except UsageError Settings :=
  match settings.code with
  | none => .ok { settings with code := some value }
  | some _ => .error (.unknown value)

/-- Give an option its value. A path is not empty. -/
def setParameter (settings : Settings) (parameter : Parameter) (value : String) :
    Except UsageError Settings :=
  match parameter with
  | .file =>
      if value.isEmpty then .error (.badValue parameter.name value)
      else (once parameter.name value settings.file).map fun file => { settings with file }
  | .mode =>
      match Parameter.view? value with
      | none => .error (.badValue parameter.name value)
      | some view => (once parameter.name view settings.view).map fun view => { settings with view }
  | .out =>
      if value.isEmpty then .error (.badValue parameter.name value)
      else (once parameter.name value settings.out).map fun out => { settings with out }

/-- Raise a flag. -/
def setFlag (settings : Settings) (flag : Flag) : Except UsageError Settings :=
  match flag with
  | .noColor => (raise flag.name settings.noColor).map fun noColor => { settings with noColor }
  | .noSimplify =>
      (raise flag.name settings.noSimplify).map fun noSimplify => { settings with noSimplify }
  | .version => (raise flag.name settings.version).map fun version => { settings with version }

end Settings

/-- What a single argument means. -/
inductive Item where
  | value (text : String)
  /-- The two dashes after which everything is a value. -/
  | stop
  | version
  | flag (flag : Flag)
  | parameter (parameter : Parameter) (attached : Option String)
  deriving Repr, DecidableEq

namespace Item

/-- The meaning of a name behind two dashes, with what follows an equals sign. -/
def ofName? (attached : Option String) : String → Option Item
  | "file" => some (.parameter .file attached)
  | "mode" => some (.parameter .mode attached)
  | "out" => some (.parameter .out attached)
  | "no-color" => some (.flag .noColor)
  | "no-optimize" => some (.flag .noSimplify)
  | "version-info" => some (.flag .version)
  | "version" => some .version
  | _ => none

/-- The meaning of a letter behind one dash, with what is attached to it. -/
def ofLetter? (attached : Option String) : Char → Option Item
  | 'f' => some (.parameter .file attached)
  | 'm' => some (.parameter .mode attached)
  | 'V' => some .version
  | _ => none

/-- What follows the first equals sign. -/
def valueOfName (text : List Char) : Option String :=
  match text.dropWhile (· ≠ '=') with
  | [] => none
  | _ :: attached => some (String.ofList attached)

/-- What is attached to a letter, without an equals sign in front. -/
def valueOfLetter : List Char → Option String
  | [] => none
  | '=' :: attached => some (String.ofList attached)
  | attached => some (String.ofList attached)

/-- Whether an option takes a value. -/
def takesValue : Item → Bool
  | .parameter _ _ => true
  | _ => false

/-- The meaning of an argument. A single dash is a value. -/
def ofArgument (argument : String) : Except UsageError Item :=
  match argument.toList with
  | ['-', '-'] => .ok .stop
  | '-' :: '-' :: text =>
      let attached := valueOfName text
      match ofName? attached (String.ofList (text.takeWhile (· ≠ '='))) with
      | none => .error (.unknown argument)
      | some item =>
          if attached.isSome && !item.takesValue then .error (.unwantedValue argument)
          else .ok item
  | '-' :: letter :: text =>
      match ofLetter? (valueOfLetter text) letter with
      | none => .error (.unknown argument)
      | some item => .ok item
  | _ => .ok (.value argument)

end Item

namespace Request

/-- Read the arguments after the options have ended. -/
def parseValues (settings : Settings) : List String → Except UsageError Request
  | [] => .ok (.run settings)
  | value :: rest => do parseValues (← settings.setCode value) rest

/-- Read arguments after some have been read, the last of which may be an option that
waits for its value. -/
def parseFrom (settings : Settings) (waiting : Option Parameter) :
    List String → Except UsageError Request
  | [] =>
      match waiting with
      | none => .ok (.run settings)
      | some parameter => .error (.missingValue parameter.name)
  | argument :: rest =>
      match waiting, Item.ofArgument argument with
      | some parameter, .ok (.value value) => do
          parseFrom (← settings.setParameter parameter value) none rest
      | some parameter, _ => .error (.missingValue parameter.name)
      | none, .error error => .error error
      | none, .ok .stop => parseValues settings rest
      | none, .ok .version => .ok .version
      | none, .ok (.value value) => do parseFrom (← settings.setCode value) none rest
      | none, .ok (.flag flag) => do parseFrom (← settings.setFlag flag) none rest
      | none, .ok (.parameter parameter (some value)) => do
          parseFrom (← settings.setParameter parameter value) none rest
      | none, .ok (.parameter parameter none) => parseFrom settings (some parameter) rest

/-- Read the arguments of the command. -/
def parse (arguments : List String) : Except UsageError Request :=
  parseFrom {} none arguments

end Request

end EvmLift.Command
