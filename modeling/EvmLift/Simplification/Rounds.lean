import EvmLift.Simplification.Constants

/-!
# Simplification of instruction streams

Each round brings constants one operator closer to their last use, so an expression
of constants needs as many rounds as it is high. Two rounds are run, and a last scan
hands the results of the second one to the instructions that use them.
-/

namespace EvmLift.Instruction

/-- One round of all three rules. -/
def simplifyOnce (instructions : List Instruction) : List Instruction :=
  let fused := (Rule.fuseJump.scan instructions).instructions
  let folded := (Rule.foldOperands.scan fused).instructions
  (Rule.foldConstants.scan folded).instructions

/-- Several rounds of all three rules. -/
def simplifyRounds : Nat → List Instruction → List Instruction
  | 0, instructions => instructions
  | rounds + 1, instructions => simplifyRounds rounds (simplifyOnce instructions)

/-- The number of rounds that simplification runs. -/
def rounds : Nat := 2

/-- Simplify a stream of instructions. -/
def simplify (instructions : List Instruction) : List Instruction :=
  (Rule.foldOperands.scan (simplifyRounds rounds instructions)).instructions

end EvmLift.Instruction
