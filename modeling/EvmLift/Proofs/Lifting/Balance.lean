import EvmLift.Proofs.Lifting.Step
import Mathlib.Algebra.BigOperators.Group.List.Basic
import Mathlib.Algebra.Ring.Int.Defs

/-!
# The stack balance

Symbolic execution keeps two accounts: the sum of the effects that opcodes declare, and the
symbolic stack itself. Each instruction drives them apart by its slack, which is what it declares
to leave less what it does leave. Slack adds up along a block and may cancel out, so whether a
block is a routine is decided by the sum. Standard instructions have no slack, and blocks of them
are always routines.
-/

namespace EvmLift

namespace Instruction

/-- What an instruction declares to leave beyond what it leaves. A jump leaves nothing, a copy
leaves one value more than it reaches unless it reaches none, and an exchange leaves the values
that it reaches. Anything else, also a shuffle that carries constants, leaves what it declares. -/
def slack (instruction : Instruction) : Int :=
  let op := instruction.op
  match op.kind, instruction.constants with
  | .jump, _ | .jumpIf, _ => op.pushes
  | .dup, none => if op.pops = 0 then op.pushes else op.pushes - (op.pops + 1)
  | .swap, none => op.pushes - op.pops
  | _, _ => 0

theorem slack_of_isJump {instruction : Instruction} (jumps : instruction.op.isJump = true) :
    instruction.slack = instruction.op.pushes := by
  rcases Opcode.isJump_iff.mp jumps with kind | kind <;> simp [slack, kind]

theorem slack_of_not_isJump {instruction : Instruction} (notJump : instruction.op.isJump = false)
    (notShuffle : instruction.op.isShuffle = true → instruction.constants ≠ none) :
    instruction.slack = 0 := by
  cases constants : instruction.constants <;> cases kind : instruction.op.kind <;>
    simp_all [slack, Opcode.isJump, Opcode.isShuffle]

/-- A shuffle leaves what it makes of the values that it reaches. -/
theorem length_rearrange_add_slack {instruction : Instruction}
    (shuffles : instruction.op.isShuffle = true) (bare : instruction.constants = none)
    {α : Type} {values : List α} (size : values.length = instruction.op.pops) :
    ((instruction.op.rearrange values).length : Int) + instruction.slack =
      instruction.op.pushes := by
  rcases Opcode.isShuffle_iff.mp shuffles with kind | kind
  · rcases values.eq_nil_or_concat with rfl | ⟨others, last, rfl⟩
    · simp [Opcode.rearrange, slack, kind, bare, ← size]
    · simp [Opcode.rearrange, slack, kind, bare, ← size]
  · simp only [Opcode.rearrange, slack, kind, bare, reduceCtorEq, if_false,
      SymbolicStack.length_exchangeEnds, size]
    omega

/-- The numbers of standard opcodes leave no slack. -/
theorem Standard.slack {instruction : Instruction} (standard : instruction.Standard) :
    instruction.slack = 0 := by
  have numbers := standard.op
  cases kind : instruction.op.kind
  case jump => simp [Instruction.slack, kind, (numbers.jump kind).2]
  case jumpIf => simp [Instruction.slack, kind, (numbers.jumpIf kind).2]
  case dup =>
    have declared := numbers.dup kind
    cases constants : instruction.constants <;> simp [Instruction.slack, kind, constants]
    omega
  case swap =>
    have declared := numbers.swap kind
    cases constants : instruction.constants <;> simp [Instruction.slack, kind, constants]
    omega
  all_goals simp [Instruction.slack, kind]

end Instruction

namespace Execution

/-- How far the declared depth exceeds the live values, less the parameters that were read. -/
def excess (state : Execution) : Int :=
  state.depth + state.stack.params - state.stack.items.length

/-- The declared depth and the parameters that were read make up the live values. -/
def Balanced (state : Execution) : Prop :=
  state.depth + state.stack.params = state.stack.items.length

/-- Taking operands counts on both accounts. -/
theorem excess_fetch (state : Execution) (instruction : Instruction) :
    (state.fetch instruction).2.excess = state.excess := by
  unfold fetch
  split
  · rfl
  · simp only [excess, SymbolicStack.items_popMany, SymbolicStack.params_popMany,
      List.length_drop]
    omega

theorem excess_shuffled (state : Execution) {instruction : Instruction}
    (shuffles : instruction.op.isShuffle = true) (bare : instruction.constants = none) :
    (state.shuffled instruction.op).excess = state.excess + instruction.slack := by
  have size := Instruction.length_rearrange_add_slack shuffles bare
    (SymbolicStack.length_popMany state.stack instruction.op.pops)
  simp only [excess, shuffled, SymbolicStack.pushAll, List.length_append, Opcode.effect,
    SymbolicStack.items_popMany, SymbolicStack.params_popMany, List.length_drop]
  omega

/-- A step drives the accounts apart by the slack of its instruction. -/
theorem excess_step (state : Execution) {instruction : Instruction}
    (reaches : instruction.op.kind = .swap → 0 < instruction.op.pops) :
    (state.step instruction).2.excess = state.excess + instruction.slack := by
  have effect := effect_step_of_reaches state reaches
  generalize (state.step instruction).1 = statement at effect
  generalize (state.step instruction).2 = next at effect ⊢
  have fetched := excess_fetch state instruction
  cases effect with
  | skip dest => simp [Instruction.slack, dest]
  | shuffle shuffles bare => exact excess_shuffled state shuffles bare
  | jump jumps =>
      rw [Instruction.slack_of_isJump jumps, ← fetched]
      simp only [excess]
      omega
  | assign notDest notJump notShuffle =>
      rw [Instruction.slack_of_not_isJump notJump notShuffle, ← fetched]
      simp only [excess, SymbolicStack.pushAll, targets, List.length_append, List.length_reverse,
        List.length_map, List.length_range']
      omega

/-- A run drives the accounts apart by the slack of all its instructions. -/
theorem excess_run (state : Execution) {instructions : List Instruction}
    (reaches : ∀ instruction ∈ instructions,
      instruction.op.kind = .swap → 0 < instruction.op.pops) :
    (state.run instructions).2.excess =
      state.excess + (instructions.map Instruction.slack).sum := by
  induction instructions generalizing state with
  | nil => simp
  | cons instruction rest ih =>
      rw [List.forall_mem_cons] at reaches
      rw [run_cons, ih _ reaches.2, excess_step state reaches.1, List.map_cons, List.sum_cons,
        Int.add_assoc]

theorem balanced_iff {state : Execution} : state.Balanced ↔ state.excess = 0 := by
  simp only [Balanced, excess]
  omega

theorem Balanced.step {state : Execution} (balanced : state.Balanced)
    {instruction : Instruction} (standard : instruction.Standard) :
    (state.step instruction).2.Balanced := by
  rw [balanced_iff] at balanced ⊢
  rw [excess_step state fun kind => (standard.op.swap kind).1, balanced, standard.slack]
  rfl

theorem Balanced.run {state : Execution} (balanced : state.Balanced)
    {instructions : List Instruction}
    (standard : ∀ instruction ∈ instructions, instruction.Standard) :
    (state.run instructions).2.Balanced := by
  induction instructions generalizing state with
  | nil => exact balanced
  | cons instruction rest ih =>
      rw [List.forall_mem_cons] at standard
      exact ih (balanced.step standard.1) standard.2

end Execution

namespace Block

/-- The routine that a block is, unless its declared effects are off. -/
def routine (block : Block) (supply : Supply) : Routine :=
  let run := Execution.run { nextVar := supply.nextVar } block.instructions
  { name := Supply.routineName supply.nextRoutine
    offset := block.offset
    arity := run.2.stack.params
    body := run.1
    returns := run.2.stack.items }

/-- The names that are left after lifting a block. -/
def remaining (block : Block) (supply : Supply) : Supply :=
  ⟨(Execution.run { nextVar := supply.nextVar } block.instructions).2.nextVar,
    supply.nextRoutine + 1⟩

/-- The slack of all instructions of a block. -/
def slack (block : Block) : Int :=
  (block.instructions.map Instruction.slack).sum

/-- The number of live values at the end of a block. -/
def live (block : Block) (supply : Supply) : Nat :=
  (Execution.run { nextVar := supply.nextVar } block.instructions).2.stack.items.length

/-- The number of live values that the declared effects expect. -/
def expected (block : Block) (supply : Supply) : Int :=
  let final := (Execution.run { nextVar := supply.nextVar } block.instructions).2
  final.depth + final.stack.params

/-- Lifting compares the live values with those that are expected. Whatever comes of it, the names
are used up. -/
theorem lift_eq_ite (block : Block) (supply : Supply) :
    block.lift supply =
      (if block.expected supply < 0 then
          .error (.negativeDepth block.offset (block.expected supply))
        else if block.expected supply ≠ block.live supply then
          .error (.imbalance block.offset (block.expected supply).toNat (block.live supply))
        else .ok (block.routine supply),
        block.remaining supply) :=
  rfl

/-- The expected number of live values is off by the slack of the block. -/
theorem expected_eq {block : Block} (supply : Supply)
    (reaches : ∀ instruction ∈ block.instructions,
      instruction.op.kind = .swap → 0 < instruction.op.pops) :
    block.expected supply = block.live supply + block.slack := by
  have apart := Execution.excess_run { nextVar := supply.nextVar } reaches
  have start : Execution.excess { nextVar := supply.nextVar } = 0 := rfl
  rw [start, Int.zero_add, Execution.excess, Int.sub_eq_iff_eq_add'] at apart
  exact apart

/-- A block is a routine exactly if its slack cancels out. Otherwise the error says by how much
the expected number of live values is off, and whether it is a number at all. -/
theorem outcome_of_slack (block : Block) (supply : Supply)
    (reaches : ∀ instruction ∈ block.instructions,
      instruction.op.kind = .swap → 0 < instruction.op.pops) :
    ((∃ routine, (block.lift supply).1 = .ok routine) ↔ block.slack = 0) ∧
      (block.live supply + block.slack < 0 →
        (block.lift supply).1 =
          .error (.negativeDepth block.offset (block.live supply + block.slack))) ∧
      ∀ expected : Nat, block.slack ≠ 0 → block.live supply + block.slack = expected →
        (block.lift supply).1 = .error (.imbalance block.offset expected (block.live supply)) := by
  rw [lift_eq_ite, expected_eq supply reaches]
  refine ⟨⟨?_, ?_⟩, ?_, ?_⟩
  · rintro ⟨routine, lifts⟩
    split at lifts
    · cases lifts
    · split at lifts
      · cases lifts
      next _ balanced =>
        rw [Decidable.not_not] at balanced
        omega
  · intro balanced
    exact ⟨block.routine supply, by simp [balanced]⟩
  · intro negative
    exact if_pos negative
  · intro expected off equal
    have missed : (expected : Int) ≠ block.live supply := by omega
    simp [equal, missed]

/-- An exchange that declares one slot too few makes up for a jump that declares a result. If it
declares none at all and its slots are dropped, the expected number is negative. -/
theorem outcome_of_slack_exchange :
    let exchange (pushes : Nat) : Instruction := ⟨0, { Opcode.swap 1 with pushes }, none⟩
    let jump : Instruction := ⟨1, { Opcode.plain 0 "leap" 1 1 with kind := .jump }, none⟩
    let drop : Instruction := ⟨1, Opcode.plain 0 "drop" 2 0, none⟩
    (∃ routine, ((Block.mk 0 [exchange 1, jump]).lift {}).1 = .ok routine) ∧
      ((Block.mk 4 [exchange 0, drop]).lift {}).1 = .error (.negativeDepth 4 (-2)) ∧
      ((Block.mk 4 [exchange 1]).lift {}).1 = .error (.imbalance 4 1 2) :=
  ⟨(outcome_of_slack _ _ (by decide)).1.mpr (by decide),
    (outcome_of_slack _ _ (by decide)).2.1 (by decide),
    (outcome_of_slack _ _ (by decide)).2.2 1 (by decide) (by decide)⟩

/-- A block of standard instructions is always a routine. -/
theorem lift_eq {block : Block} (supply : Supply)
    (standard : ∀ instruction ∈ block.instructions, instruction.Standard) :
    block.lift supply = (.ok (block.routine supply), block.remaining supply) := by
  have balanced : block.slack = 0 := by
    apply List.sum_eq_zero
    intro slack member
    rcases List.mem_map.mp member with ⟨instruction, listed, rfl⟩
    exact (standard instruction listed).slack
  have expects := expected_eq supply fun instruction member kind =>
    ((standard instruction member).op.swap kind).1
  rw [lift_eq_ite, expects, balanced]
  simp

/-- The routines of blocks, with the names threaded through. -/
def routines (supply : Supply) : List Block → List Routine
  | [] => []
  | block :: rest => block.routine supply :: routines (block.remaining supply) rest

/-- Blocks of standard instructions are always routines. -/
theorem liftAll_eq {blocks : List Block} (supply : Supply)
    (standard : ∀ block ∈ blocks, ∀ instruction ∈ block.instructions, instruction.Standard) :
    liftAll supply blocks = .ok (routines supply blocks) := by
  induction blocks generalizing supply with
  | nil => rfl
  | cons block rest ih =>
      rw [List.forall_mem_cons] at standard
      simp only [liftAll, lift_eq supply standard.1, ih _ standard.2]
      rfl

end Block

end EvmLift
