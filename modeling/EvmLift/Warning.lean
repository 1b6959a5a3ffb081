import EvmLift.Text.Hex

/-!
# Warnings

Things that a reader of the result should know and that do not stop the work.
Warnings are values in the order in which they arise; `message` is their wording.
-/

namespace EvmLift

/-- A remark on input that is handled by a rule the author may not have meant. -/
inductive Warning where
  /-- The code ends inside the constant of a push. -/
  | truncatedPush (mnemonic : String) (offset width available : Nat)
  /-- A jump passes fewer values than the routine it goes to takes. -/
  | shortJump (offset : Option Nat) (passed : Nat) (callee : String) (needed : Nat)
  /-- A routine leaves fewer values than the next one takes. -/
  | shortFallthrough (routine : String) (left : Nat) (next : String) (needed : Nat)
  deriving Repr, DecidableEq

namespace Warning

/-- The offset of a jump as warnings write it. -/
def position : Option Nat → String
  | some offset => s!"Some({offset})"
  | none => "None"

/-- The wording of a warning. -/
def message : Warning → String
  | .truncatedPush mnemonic offset width available =>
      "truncated " ++ mnemonic ++ " at offset " ++ Hex.literal offset ++
        s!": needs {width} bytes, {available} left"
  | .shortJump offset passed callee needed =>
      "jump at " ++ position offset ++ s!" passes {passed} values, {callee} needs {needed}"
  | .shortFallthrough routine left next needed =>
      s!"{routine} leaves {left} values, {next} needs {needed}"

end Warning

end EvmLift
