import EvmLift.Command.Run

/-!
# The command

The command line on the real machine: files, the standard streams and the exit code.
-/

namespace EvmLift.Command

/-- The wording of a failure of the machine. -/
def causeOfError : IO.Error → String
  | .noFileOrDirectory _ code description
  | .inappropriateType _ code description
  | .permissionDenied _ code description
  | .alreadyExists _ code description
  | .invalidArgument _ code description
  | .resourceExhausted _ code description => SystemError.message ⟨description, code.toNat⟩
  | error => toString error

/-- Bytes as text. -/
def decodeText (bytes : ByteArray) : Except String String :=
  match String.fromUTF8? bytes with
  | some text => .ok text
  | none => .error "stream did not contain valid UTF-8"

/-- The real machine. -/
def realHost : IO (Host IO) := do
  let input ← IO.getStdin
  let output ← IO.getStdout
  return {
    read := fun path => do
      -- Opening reports the system's own code; asking for the file's size first does not.
      try
        let file ← IO.FS.Handle.mk path .read
        return decodeText (← file.readBinToEnd)
      catch error => return .error (causeOfError error)
    write := fun path text => do
      try
        IO.FS.writeFile path text
        return .ok ()
      catch error => return .error (causeOfError error)
    input := do
      try return decodeText (← input.readBinToEnd)
      catch error => return .error (causeOfError error)
    inputIsTerminal := ← input.isTty
    outputIsTerminal := ← output.isTty }

end EvmLift.Command

/-- Run the command and report. -/
def main (arguments : List String) : IO UInt32 := do
  let host ← EvmLift.Command.realHost
  let outcome ← EvmLift.Command.run host arguments
  for warning in outcome.warnings do
    IO.eprintln s!"warning: {warning.message}"
  IO.print outcome.output
  IO.eprint outcome.report
  return outcome.code.toUInt32
