import EvmLift.Opcode.Table

/-!
# Instructions

An instruction is an opcode at an offset of the code. It either takes its operands
from the stack or carries them as constants. A decoded push carries the constant
that it leaves, and simplification gives constants to other instructions.
-/

namespace EvmLift

/-- An opcode at an offset, with the constants that it carries. -/
structure Instruction where
  offset : Nat
  op : Opcode
  /-- The operands, top of the stack first; none if they come from the stack. This
  is not the same as an empty list of constants. -/
  constants : Option (List Word) := none
  deriving Repr, DecidableEq

namespace Instruction

/-- The constant that a push leaves. -/
def pushed? (instruction : Instruction) : Option Word :=
  if instruction.op.isPush then instruction.constants.bind List.head? else none

end Instruction

end EvmLift
