import EvmLift.Program.Fallthrough
import EvmLift.Program.Inlining
import EvmLift.Program.Jumps
import EvmLift.Program.Numbering

/-!
# Linking

The routines of single blocks become one program. Constants are inlined first, so
that jumps go to known offsets; numbering follows, so that removed pushes leave no
gaps; and the jumps between neighbours come last, on the final numbers.
-/

namespace EvmLift

/-- A linked program, with the warnings that arose. -/
structure Linked where
  program : Program
  warnings : List Warning
  deriving Repr, DecidableEq

namespace Program

/-- Link the routines of a program. -/
def link (program : Program) : Except UndefinedVariable Linked := do
  let inlined := program.inlineConstants
  let numbered ← inlined.linkJumps.renumber
  return ⟨numbered.addFallthroughs, inlined.jumpWarnings ++ numbered.fallthroughWarnings⟩

end Program

end EvmLift
