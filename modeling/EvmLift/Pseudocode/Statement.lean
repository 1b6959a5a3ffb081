import EvmLift.Opcode.Basic
import EvmLift.Symbolic.Value

/-!
# Statements

A statement of pseudocode either assigns the results of an opcode or jumps. Stack
slots no longer occur: operands, results and passed values are symbolic values.
-/

namespace EvmLift

/-- Where a jump goes. -/
inductive Callee where
  /-- The start of a known routine. -/
  | routine (name : String)
  /-- A known offset at which nothing starts. -/
  | fault
  /-- Whatever the value says. -/
  | computed (value : Value)
  deriving Repr, DecidableEq

namespace Callee

/-- The value that decides where the jump goes. -/
def value? : Callee → Option Value
  | .computed value => some value
  | _ => none

end Callee

/-- A line of pseudocode. -/
inductive Statement where
  /-- The results of an opcode on its operands, top of the stack first, become the
  targets. -/
  | assign (offset : Nat) (targets : List Value) (op : Opcode) (operands : List Value)
  /-- Control goes to the callee with the given values, if the condition is not zero.
  A jump without an offset stands for falling through to the next routine. -/
  | jump (offset : Option Nat) (callee : Callee) (condition : Option Value) (args : List Value)
  deriving Repr, DecidableEq

namespace Statement

/-- Whether control never reaches the following statement. -/
def endsBlock : Statement → Bool
  | .assign _ _ op _ => op.terminates
  | .jump _ _ condition _ => condition.isNone

/-- Every value that the statement reads. -/
def reads : Statement → List Value
  | .assign _ _ _ operands => operands
  | .jump _ callee condition args => callee.value?.toList ++ condition.toList ++ args

end Statement

end EvmLift
