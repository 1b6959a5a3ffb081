import EvmLift.Instruction

/-!
# Blocks

A block is a run of instructions that is entered only at its start. A stream is cut
before every jump destination. The first block is entered at offset zero, also if
simplification removed the instructions there.
-/

namespace EvmLift

/-- A run of instructions entered at an offset. -/
structure Block where
  offset : Nat
  instructions : List Instruction
  deriving Repr, DecidableEq

namespace Block

/-- The instructions before the first jump destination, and the blocks from there
on. -/
def cut : List Instruction → List Instruction × List Block
  | [] => ([], [])
  | instruction :: rest =>
      let (leading, blocks) := cut rest
      if instruction.op.isJumpDest then
        ([], ⟨instruction.offset, instruction :: leading⟩ :: blocks)
      else (instruction :: leading, blocks)

/-- Cutting loses and reorders nothing. -/
theorem cut_append (instructions : List Instruction) :
    (cut instructions).1 ++ (cut instructions).2.flatMap Block.instructions = instructions := by
  induction instructions with
  | nil => rfl
  | cons instruction rest ih =>
      simp only [cut]
      split <;> simpa using ih

/-- The blocks of a stream. A jump destination at the very start opens no block of
its own, and only an empty stream has an empty block. -/
def split : List Instruction → List Block
  | [] => [⟨0, []⟩]
  | first :: rest =>
      let (leading, blocks) := cut rest
      ⟨0, first :: leading⟩ :: blocks

/-- The blocks of a stream hold its instructions in order. -/
theorem flatMap_split (instructions : List Instruction) :
    (split instructions).flatMap Block.instructions = instructions := by
  cases instructions with
  | nil => rfl
  | cons first rest => simpa [split] using cut_append rest

end Block

end EvmLift
