import EvmLift.Instruction

/-!
# Replacement rules on instruction streams

A rule looks at one instruction and at what stands before it, and may replace that
instruction and absorb some of those directly before. One scan from left to right
applies a rule wherever it fires. What the rule sees before the cursor is what the scan
left there, so one replacement can make room for the next.
-/

namespace EvmLift

/-- What a rule makes of an instruction. -/
structure Replacement where
  /-- The instruction in the place of the old one. -/
  instruction : Instruction
  /-- The number of instructions directly before that disappear into it. -/
  absorbed : Nat
  deriving Repr, DecidableEq

/-- A replacement rule, given the instructions before the cursor, nearest first, and
the one at the cursor. -/
abbrev Rule := List Instruction → Instruction → Option Replacement

/-- A stream after a scan, with the number of times that the rule fired. -/
structure Scanned where
  instructions : List Instruction
  count : Nat
  deriving Repr, DecidableEq

namespace Rule

/-- Move the cursor over one instruction. The stream before the cursor is held
nearest first. -/
def step (rule : Rule) (passed : Scanned) (next : Instruction) : Scanned :=
  match rule passed.instructions next with
  | some replacement =>
      ⟨replacement.instruction :: passed.instructions.drop replacement.absorbed, passed.count + 1⟩
  | none => ⟨next :: passed.instructions, passed.count⟩

theorem step_eq_of_none {rule : Rule} {passed : Scanned} {next : Instruction}
    (quiet : rule passed.instructions next = none) :
    rule.step passed next = ⟨next :: passed.instructions, passed.count⟩ := by
  simp [step, quiet]

theorem step_eq_of_some {rule : Rule} {passed : Scanned} {next : Instruction}
    {replacement : Replacement} (fires : rule passed.instructions next = some replacement) :
    rule.step passed next =
      ⟨replacement.instruction :: passed.instructions.drop replacement.absorbed,
        passed.count + 1⟩ := by
  simp [step, fires]

/-- Apply a rule in one scan from left to right. -/
def scan (rule : Rule) (instructions : List Instruction) : Scanned :=
  let final := instructions.foldl rule.step ⟨[], 0⟩
  { final with instructions := final.instructions.reverse }

end Rule

end EvmLift
