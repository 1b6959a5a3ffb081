import EvmLift.Fork
import EvmLift.Operator

/-!
# Opcodes

An opcode is described by data: how it is spelled, what it takes from the stack and
leaves there, and which of a few kinds it belongs to. Everything downstream looks
at this description and never at the byte, so that a description outside the
standard table works as well.
-/

namespace EvmLift

/-- What an opcode does beyond taking operands and leaving results. -/
inductive Kind where
  /-- Takes operands and leaves results. -/
  | plain
  /-- Leaves a constant from the code. -/
  | push
  /-- Copies a stack slot to the top. -/
  | dup
  /-- Exchanges the top of the stack with a deeper slot. -/
  | swap
  /-- Goes to the offset on top of the stack. -/
  | jump
  /-- Goes to the offset on top of the stack if the slot below is not zero. -/
  | jumpIf
  /-- Marks an offset that may be jumped to. -/
  | jumpDest
  /-- Ends execution exceptionally. -/
  | fault
  deriving Repr, DecidableEq

/-- The description of an opcode. -/
structure Opcode where
  /-- The byte that stands for the opcode in code. -/
  byte : UInt8
  /-- The spelling in listings. -/
  mnemonic : String
  /-- The number of stack slots that are read. -/
  pops : Nat
  /-- The number of stack slots that are written. -/
  pushes : Nat
  /-- The fork that introduced the opcode. -/
  since : Fork := .frontier
  /-- The number of bytes after the opcode that belong to the instruction. -/
  immediate : Nat := 0
  kind : Kind := .plain
  /-- The operator that computes the result from constant operands. -/
  operator : Option Operator := none
  /-- The sign between two operands in pseudocode. -/
  symbol : Option String := none
  /-- Whether execution never goes on to the next instruction. -/
  terminates : Bool := false
  deriving Repr, DecidableEq

namespace Opcode

/-- The change of the stack depth. -/
def effect (op : Opcode) : Int :=
  (op.pushes : Int) - (op.pops : Int)

/-- Whether the opcode leaves a constant from the code. -/
def isPush (op : Opcode) : Bool :=
  op.kind = .push

/-- Whether the opcode rearranges the stack without computing anything. -/
def isShuffle (op : Opcode) : Bool :=
  op.kind = .dup || op.kind = .swap

/-- Whether the opcode may continue elsewhere. -/
def isJump (op : Opcode) : Bool :=
  op.kind = .jump || op.kind = .jumpIf

/-- Whether the opcode marks an offset that may be jumped to. -/
def isJumpDest (op : Opcode) : Bool :=
  op.kind = .jumpDest

/-- The depth a shuffle reaches: the copied slot counted from one, or the exchanged
slot counted from zero. -/
def shuffleDepth? (op : Opcode) : Option Nat :=
  match op.kind with
  | .dup => some op.pops
  | .swap => some (op.pops - 1)
  | _ => none

end Opcode

end EvmLift
