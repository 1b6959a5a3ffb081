import EvmLift.Command.Request

/-!
# Running a request

A request reads its code, decompiles it and writes the result. Everything the command
may touch outside itself is a function of its host, so that running it is a pure
function of the arguments and the host's answers.
-/

namespace EvmLift.Command

/-- A failure that the operating system reports. -/
structure SystemError where
  description : String
  code : Nat
  deriving Repr, DecidableEq

namespace SystemError

/-- The wording of a failure. -/
def message (error : SystemError) : String :=
  s!"{error.description} (os error {error.code})"

end SystemError

/-- What the command may touch. -/
structure Host (m : Type → Type) where
  /-- The text of the file at a path, or why there is none. -/
  read : String → m (Except String String)
  /-- Puts a text into the file at a path, or says why not. -/
  write : String → String → m (Except String Unit)
  /-- The text on the input, or why there is none. -/
  input : m (Except String String)
  /-- Whether the input is a terminal, from which no code is read. -/
  inputIsTerminal : Bool
  /-- Whether the output is a terminal, which shows colour. -/
  outputIsTerminal : Bool

/-- A failure of the command: what it was doing, and what stopped it. -/
structure Failure where
  context : String
  cause : Option String
  deriving Repr, DecidableEq

namespace Failure

/-- A text with every line moved to the right. -/
def indent (text : String) : String :=
  String.ofList ("    ".toList ++ text.toList.flatMap fun character =>
    if character = '\n' then "\n    ".toList else [character])

/-- The report on a failure. -/
def report (failure : Failure) : String :=
  match failure.cause with
  | some cause => "Error: " ++ failure.context ++ "\n\nCaused by:\n" ++ indent cause ++ "\n"
  | none => "Error: " ++ failure.context ++ "\n"

end Failure

/-- How the command ended. -/
structure Outcome where
  code : Nat
  output : String
  report : String
  warnings : List Warning
  deriving Repr, DecidableEq

namespace Outcome

/-- The command did its work. -/
def success (output : String) (warnings : List Warning) : Outcome :=
  ⟨0, output, "", warnings⟩

/-- The command failed. -/
def failure (failure : Failure) (warnings : List Warning) : Outcome :=
  ⟨1, "", failure.report, warnings⟩

/-- The arguments cannot be understood. -/
def misuse (error : UsageError) : Outcome :=
  ⟨2, "", "error: " ++ error.message ++ "\n", []⟩

end Outcome

/-- The name and version of the command. -/
def versionText : String := "ostia 0.1.0"

/-- The code that the settings point to. A file wins over code on the command line,
and the input is read last. -/
def Settings.readSource {m : Type → Type} [Monad m] (settings : Settings) (host : Host m) :
    m (Except Failure String) :=
  match settings.file, settings.code with
  | some path, _ => do
      match ← host.read path with
      | .ok text => return .ok text
      | .error cause => return .error ⟨"cannot read " ++ path, some cause⟩
  | none, some code => return .ok code
  | none, none =>
      if host.inputIsTerminal then
        return .error
          ⟨"no bytecode provided: pass it as an argument, via -f, or pipe to stdin", none⟩
      else do
        match ← host.input with
        | .ok text => return .ok text
        | .error cause => return .error ⟨"cannot read stdin", some cause⟩

/-- How the settings decompile. Colour is for terminals only. -/
def Settings.options {m : Type → Type} (settings : Settings) (host : Host m) : Options where
  view := settings.view.getD .pseudocode
  color := !settings.noColor && settings.out.isNone && host.outputIsTerminal
  simplify := !settings.noSimplify

/-- Write the result where the settings say. -/
def Settings.deliver {m : Type → Type} [Monad m] (settings : Settings) (host : Host m)
    (result : Decompilation) : m Outcome := do
  let text := result.text ++ "\n"
  match settings.out with
  | none => return .success text result.warnings
  | some path =>
      match ← host.write path text with
      | .ok _ => return .success "" result.warnings
      | .error cause =>
          return .failure ⟨"cannot write " ++ path, some cause⟩ result.warnings

/-- Do what the settings say. -/
def Settings.run {m : Type → Type} [Monad m] (settings : Settings) (host : Host m) :
    m Outcome := do
  match ← settings.readSource host with
  | .error failure => return .failure failure []
  | .ok source =>
      match decompile (settings.options host) source with
      | .error error => return .failure ⟨error.context, some error.cause⟩ []
      | .ok result => settings.deliver host result

/-- Run the command on its arguments. -/
def run {m : Type → Type} [Monad m] (host : Host m) (arguments : List String) : m Outcome :=
  match Request.parse arguments with
  | .error error => return .misuse error
  | .ok .version => return .success (versionText ++ "\n") []
  | .ok (.run settings) =>
      if settings.version then return .success (versionText ++ "\n") []
      else settings.run host

end EvmLift.Command
