import EvmLift.Proofs.Lifting.Correctness
import EvmLift.Proofs.Lifting.Form

/-!
# The form of simplified instructions

A rule gives an instruction all of its operands or none, and the pushes that it writes stand in
the table. So simplification keeps the form that decoding gives to instructions.
-/

namespace EvmLift

/-- The push of a computed constant stands in the table. -/
theorem Opcode.pushFor_mem_all (value : Word) : pushFor value ∈ all := by
  have listed : ∀ width < 33, ofByte (push width).byte = push width := by decide +kernel
  have narrow : max 1 (min value.byteSize 32) < 33 := by omega
  rw [pushFor, pushOfWidth, ← listed _ narrow]
  exact ofByte_mem_all _

/-- Rules keep the form of instructions. -/
theorem Rule.Fired.regular {before : List Instruction} {next : Instruction}
    {replacement : Replacement} (fired : Fired before next replacement)
    (regular : next.Regular) : replacement.instruction.Regular where
  listed := by
    cases fired with
    | jump | jumpIf | operands => exact regular.listed
    | computed => exact Opcode.pushFor_mem_all _
  pushed := (fired.standard regular.standard).pushed
  bare := fired.shufflesBare
  sized := by
    intro notPush words carried
    cases fired with
    | jump kind bare pushed =>
        cases carried
        rw [length_of_pushedBefore? pushed]
        exact (regular.standard.op.jump kind).1.symm
    | jumpIf kind bare pushed =>
        cases carried
        rw [List.length_reverse, length_of_pushedBefore? pushed]
        exact (regular.standard.op.jumpIf kind).1.symm
    | operands accepts pushed =>
        cases carried
        exact length_of_pushedBefore? pushed
    | computed => exact absurd rfl notPush

/-- The instructions of code are regular, simplified or not. -/
theorem Options.regular_instructions (options : Options) (code : Bytecode) :
    ∀ instruction ∈ options.instructions code, instruction.Regular :=
  options.forall_mem_instructions (fun _ _ _ fired => fired.regular)
    Bytecode.regular_of_mem_decode

end EvmLift
