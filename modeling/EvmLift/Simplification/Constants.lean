import EvmLift.Simplification.Rule

/-!
# Moving constants into instructions

Three rules move pushed constants toward their use. Jumps take the constants pushed
right before them, other instructions take theirs if all operands are constants,
and an instruction whose operator can run on its constants becomes a push of the
result.
-/

namespace EvmLift.Rule

/-- The constants of the nearest `count` instructions, if all of these are pushes. -/
def pushedBefore? : Nat → List Instruction → Option (List Word)
  | 0, _ => some []
  | _ + 1, [] => none
  | count + 1, nearest :: before => do
      let value ← nearest.pushed?
      let values ← pushedBefore? count before
      return value :: values

theorem length_of_pushedBefore? {count : Nat} {before : List Instruction} {values : List Word}
    (pushed : pushedBefore? count before = some values) : values.length = count := by
  induction count generalizing before values with
  | zero =>
      cases pushed
      rfl
  | succ count ih =>
      cases before with
      | nil => cases pushed
      | cons nearest before =>
          simp only [pushedBefore?, Option.bind_eq_bind, Option.bind_eq_some_iff] at pushed
          obtain ⟨value, _, others, rest, equal⟩ := pushed
          cases equal
          simp [ih rest]

/-- A jump takes the constant pushed right before it as its target. A conditional
jump takes two, in the order of their pushes. -/
def fuseJump : Rule := fun before next =>
  if next.constants.isSome then none
  else
    match next.op.kind, before with
    | .jump, nearest :: _ => do
        let target ← nearest.pushed?
        return ⟨{ next with constants := some [target] }, 1⟩
    | .jumpIf, second :: first :: _ => do
        let earlier ← first.pushed?
        let later ← second.pushed?
        return ⟨{ next with constants := some [earlier, later] }, 2⟩
    | _, _ => none

/-- Whether an instruction may take constants in place of stack slots. Jumps have a
rule of their own, and shuffles have no operands. -/
def acceptsConstants (instruction : Instruction) : Bool :=
  !instruction.op.isShuffle && !instruction.op.isJump &&
    instruction.constants.isNone && instruction.op.pops != 0

/-- An instruction takes its operands from the pushes right before it, if there is a
push for each of them. -/
def foldOperands : Rule := fun before next =>
  if acceptsConstants next then do
    let values ← pushedBefore? next.op.pops before
    return ⟨{ next with constants := some values }, next.op.pops⟩
  else none

/-- An instruction whose operator runs on its constants becomes the narrowest push
of the result. -/
def foldConstants : Rule := fun _ next => do
  let operator ← next.op.operator
  let operands ← next.constants
  if operands.length = next.op.pops then
    let value ← operator.compute? operands
    return ⟨⟨next.offset, Opcode.pushFor value, some [value]⟩, 0⟩
  else none

end EvmLift.Rule
