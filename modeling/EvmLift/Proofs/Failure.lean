import EvmLift.Decompilation
import EvmLift.Proofs.Blocks
import EvmLift.Proofs.Lifting.Scope
import EvmLift.Proofs.Linking.Chain
import EvmLift.Proofs.Simplification.Firing

/-!
# What can fail

Lifting and linking have errors of their own, for opcodes whose numbers do not fit their
kind and for variables that are read too early. Code never meets them: its instructions
are standard, simplified or not, so their blocks are routines and these are well scoped.
-/

namespace EvmLift

/-- What decoding gives to instructions and rules keep holds of the instructions of code,
simplified or not. -/
theorem Options.forall_mem_instructions (options : Options) {motive : Instruction → Prop}
    (keeps : ∀ before next replacement, Rule.Fired before next replacement → motive next →
      motive replacement.instruction)
    {code : Bytecode} (decoded : ∀ instruction ∈ code.decode, motive instruction) :
    ∀ instruction ∈ options.instructions code, motive instruction := by
  unfold instructions
  split
  · exact Instruction.forall_mem_simplify keeps decoded
  · exact decoded

theorem Options.standard_instructions (options : Options) (code : Bytecode) :
    ∀ instruction ∈ options.instructions code, instruction.Standard :=
  options.forall_mem_instructions (fun _ _ _ fired => fired.standard)
    Bytecode.standard_of_mem_decode

namespace Block

variable {blocks : List Block}

theorem ofBlocks_eq
    (standard : ∀ block ∈ blocks, ∀ instruction ∈ block.instructions, instruction.Standard) :
    Program.ofBlocks blocks = .ok ⟨routines {} blocks⟩ := by
  rw [Program.ofBlocks, liftAll_eq {} standard]
  rfl

theorem decompileBlocks_eq {linked : Linked}
    (standard : ∀ block ∈ blocks, ∀ instruction ∈ block.instructions, instruction.Standard)
    (links : (Program.mk (routines {} blocks)).link = .ok linked) :
    decompileBlocks blocks = .ok linked := by
  rw [decompileBlocks, ofBlocks_eq standard]
  simp only [links]

end Block

/-- Decompilation fails exactly on text that is no code, with the error that says so.
The errors of lifting and linking do not occur. -/
theorem decompile_eq_error_iff (options : Options) (source : String) :
    (∀ error, decompile options source = .error error ↔
      ∃ cause, error = .hex cause ∧ Bytecode.ofHex source = .error cause) ∧
    ∀ code : Bytecode, ∃ program linked,
      Program.ofBlocks (Block.split (options.instructions code)) = .ok program ∧
        program.link = .ok linked := by
  have standard := fun code => Block.forall_mem_split (options.standard_instructions code)
  constructor
  · intro error
    unfold decompile
    cases read : Bytecode.ofHex source with
    | error cause => simp [eq_comm]
    | ok code =>
        obtain ⟨numbered, links, _⟩ := (Block.scoped_routines (standard code)).exists_link
        have decompiles := Block.decompileBlocks_eq (standard code) links
        cases options.view <;> simp [decompiles, Except.map]
  · intro code
    obtain ⟨numbered, links, _⟩ := (Block.scoped_routines (standard code)).exists_link
    exact ⟨_, _, Block.ofBlocks_eq (standard code), links⟩

end EvmLift
