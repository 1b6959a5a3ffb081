import EvmLift.Text.Hex
import EvmLift.Word.Basic

/-!
# Symbolic values

What stands in a stack slot when a block runs without knowing the machine's state: a
constant, the result of an earlier statement, or a value that was on the stack before
the block began.
-/

namespace EvmLift

/-- A symbolic stack value. -/
inductive Value where
  /-- A known word. -/
  | const (word : Word)
  /-- The result of a statement. -/
  | var (id : Nat)
  /-- A slot of the stack that the block starts on, counted from its top. -/
  | param (index : Nat)
  deriving Repr, DecidableEq

namespace Value

/-- The word of a constant. -/
def word? : Value → Option Word
  | .const word => some word
  | _ => none

/-- The number of a variable. -/
def id? : Value → Option Nat
  | .var id => some id
  | _ => none

/-- How listings write a value. -/
def text : Value → String
  | .const word => Hex.literal word.toNat
  | .var id => s!"var{id}"
  | .param index => s!"arg{index}"

end Value

end EvmLift
