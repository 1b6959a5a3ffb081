import EvmLift.Proofs.Semantics.Live
import EvmLift.Proofs.Standard
import EvmLift.Symbolic.Execution
import Mathlib.Tactic.Convert

/-!
# One step of symbolic execution

What a step can do is said here once. A jump destination does nothing, a shuffle only
moves values, a jump looks at its operands, and any other instruction assigns fresh
variables. Every invariant of symbolic execution is derived from these four cases.
-/

namespace EvmLift

namespace SymbolicStack

theorem dup_eq (stack : SymbolicStack) (depth : Nat) :
    stack.dup depth =
      (stack.popMany depth).2.pushAll
        ((stack.popMany depth).1.getLast?.toList ++ (stack.popMany depth).1) := by
  rw [dup]
  cases last : (stack.popMany depth).1.getLast? with
  | some copied => simp [last]
  | none =>
      -- Nothing is copied at depth zero only, where nothing is taken either.
      have size := length_popMany stack depth
      rw [List.getLast?_eq_none_iff.mp last, List.length_nil] at size
      subst size
      simp [popMany, pushAll]

end SymbolicStack

namespace Execution

/-- The operands of an instruction, and the state after they have been taken. -/
def fetch (state : Execution) (instruction : Instruction) : List Value × Execution :=
  match instruction.constants with
  | some words => (words.map Value.const, state)
  | none =>
      ((state.stack.popMany instruction.op.pops).1,
        { state with
          stack := (state.stack.popMany instruction.op.pops).2
          depth := state.depth - instruction.op.pops })

@[simp] theorem nextVar_fetch (state : Execution) (instruction : Instruction) :
    (state.fetch instruction).2.nextVar = state.nextVar := by
  unfold fetch
  split <;> rfl

/-- The state after a shuffle. -/
def shuffled (state : Execution) (op : Opcode) : Execution :=
  { state with
    stack := (state.stack.popMany op.pops).2.pushAll
      (op.rearrange (state.stack.popMany op.pops).1)
    depth := state.depth + op.effect }

/-- The condition of a jump on its operands. -/
def condition? (op : Opcode) (operands : List Value) : Option Value :=
  if op.kind = .jumpIf then operands[1]? else none

/-- A jump reads its operands and passes on what is live. -/
theorem mem_of_mem_reads_jump {offset : Option Nat} {op : Opcode} {operands items : List Value}
    {value : Value}
    (member : value ∈ (Statement.jump offset ((operands.head?.map Callee.computed).getD .fault)
      (condition? op operands) items).reads) : value ∈ operands ∨ value ∈ items := by
  simp only [Statement.reads, List.mem_append, Option.mem_toList] at member
  rcases member with (target | condition) | passed
  · left
    cases found : operands.head? with
    | none => simp [found, Callee.value?] at target
    | some first =>
        have same : first = value := by simpa [found, Callee.value?] using target
        exact same ▸ List.mem_of_head? found
  · left
    unfold condition? at condition
    split at condition
    · exact List.mem_of_getElem? condition
    · cases condition
  · exact .inr passed

/-- The ways in which an instruction acts on a state: the statement that it leaves, and
the state after it. -/
inductive Effect (state : Execution) (instruction : Instruction) :
    Option Statement → Execution → Prop where
  | skip (dest : instruction.op.kind = .jumpDest) : Effect state instruction none state
  | shuffle (shuffles : instruction.op.isShuffle = true) (bare : instruction.constants = none) :
      Effect state instruction none (state.shuffled instruction.op)
  | jump (jumps : instruction.op.isJump = true) :
      Effect state instruction
        (some (.jump (some instruction.offset)
          (((state.fetch instruction).1.head?.map Callee.computed).getD .fault)
          (condition? instruction.op (state.fetch instruction).1)
          (state.fetch instruction).2.stack.items))
        { (state.fetch instruction).2 with
          depth := (state.fetch instruction).2.depth + instruction.op.pushes }
  | assign (notDest : instruction.op.kind ≠ .jumpDest) (notJump : instruction.op.isJump = false)
      (notShuffle : instruction.op.isShuffle = true → instruction.constants ≠ none) :
      Effect state instruction
        (some (.assign instruction.offset (state.targets instruction.op.pushes) instruction.op
          (state.fetch instruction).1))
        { (state.fetch instruction).2 with
          depth := (state.fetch instruction).2.depth + instruction.op.pushes
          stack := (state.fetch instruction).2.stack.pushAll
            (state.targets instruction.op.pushes).reverse
          nextVar := state.nextVar + instruction.op.pushes }

/-- An instruction that is neither skipped nor a shuffle jumps or assigns. -/
theorem effect_emit (state : Execution) (instruction : Instruction)
    (notDest : instruction.op.kind ≠ .jumpDest)
    (notShuffle : instruction.op.isShuffle = true → instruction.constants ≠ none) :
    Effect state instruction
      (some ((state.fetch instruction).2.emit instruction (state.fetch instruction).1).1)
      ((state.fetch instruction).2.emit instruction (state.fetch instruction).1).2 := by
  have fresh := nextVar_fetch state instruction
  by_cases jumps : instruction.op.isJump = true
  · convert (Effect.jump jumps : Effect state instruction _ _) using 2
    all_goals
      cases kind : instruction.op.kind <;>
        simp_all [emit, condition?, Opcode.isJump]
  · convert (Effect.assign notDest (by simpa using jumps) notShuffle :
      Effect state instruction _ _) using 2
    all_goals
      cases kind : instruction.op.kind <;>
        simp_all [emit, targets, Opcode.isJump]

/-- A step has one of the four effects, whatever the opcode declares, unless an exchange does
not even reach the top. -/
theorem effect_step_of_reaches (state : Execution) {instruction : Instruction}
    (reaches : instruction.op.kind = .swap → 0 < instruction.op.pops) :
    Effect state instruction (state.step instruction).1 (state.step instruction).2 := by
  by_cases dest : instruction.op.kind = .jumpDest
  · simpa [step, Opcode.isJumpDest, dest] using Effect.skip dest
  by_cases shuffles : instruction.op.isShuffle = true ∧ instruction.constants = none
  · have effect : Effect state instruction _ _ := .shuffle shuffles.1 shuffles.2
    rcases Opcode.isShuffle_iff.mp shuffles.1 with kind | kind
    · simpa [step, Opcode.isJumpDest, kind, shuffles.2, shuffled, SymbolicStack.dup_eq,
        Opcode.rearrange] using effect
    · have positive := Nat.sub_add_cancel (reaches kind)
      simpa [step, Opcode.isJumpDest, kind, shuffles.2, shuffled, SymbolicStack.swap, positive,
        Opcode.rearrange] using effect
  · have effect := effect_emit state instruction dest fun shuffle bare => shuffles ⟨shuffle, bare⟩
    convert effect using 2
    all_goals
      cases constants : instruction.constants <;>
        cases kind : instruction.op.kind <;>
          simp_all [step, fetch, Opcode.isJumpDest, Opcode.isShuffle]

/-- A step of a standard instruction has one of the four effects. -/
theorem effect_step (state : Execution) {instruction : Instruction}
    (standard : instruction.op.Standard) :
    Effect state instruction (state.step instruction).1 (state.step instruction).2 :=
  effect_step_of_reaches state fun kind => (standard.swap kind).1

@[simp] theorem run_nil (state : Execution) : state.run [] = ([], state) := rfl

theorem run_cons (state : Execution) (instruction : Instruction) (rest : List Instruction) :
    state.run (instruction :: rest) =
      ((state.step instruction).1.toList ++ ((state.step instruction).2.run rest).1,
        ((state.step instruction).2.run rest).2) := rfl

/-- What holds of the statement of every step holds of all statements of a run. -/
theorem forall_mem_run {motive : Statement → Prop} {instructions : List Instruction}
    (steps : ∀ instruction ∈ instructions, ∀ state : Execution,
      ∀ statement ∈ (state.step instruction).1.toList, motive statement) (state : Execution) :
    ∀ statement ∈ (state.run instructions).1, motive statement := by
  induction instructions generalizing state with
  | nil => simp
  | cons instruction rest ih =>
      rw [List.forall_mem_cons] at steps
      intro statement member
      rcases List.mem_append.mp member with own | later
      · exact steps.1 state statement own
      · exact ih steps.2 _ statement later

theorem run_append (state : Execution) (first second : List Instruction) :
    state.run (first ++ second) =
      ((state.run first).1 ++ ((state.run first).2.run second).1,
        ((state.run first).2.run second).2) := by
  induction first generalizing state with
  | nil => rfl
  | cons instruction rest ih => simp [run_cons, ih]

theorem params_le_fetch (state : Execution) (instruction : Instruction) :
    state.stack.params ≤ (state.fetch instruction).2.stack.params := by
  unfold fetch
  split
  · exact Nat.le_refl _
  · rw [SymbolicStack.params_popMany]
    exact Nat.le_add_right _ _

/-- Parameters that were read stay read. -/
theorem params_le_step (state : Execution) {instruction : Instruction}
    (standard : instruction.op.Standard) :
    state.stack.params ≤ (state.step instruction).2.stack.params := by
  have effect := effect_step state standard
  generalize (state.step instruction).1 = statement at effect
  generalize (state.step instruction).2 = next at effect ⊢
  cases effect with
  | skip dest => exact Nat.le_refl _
  | shuffle shuffles bare =>
      show _ ≤ (state.stack.popMany instruction.op.pops).2.params
      rw [SymbolicStack.params_popMany]
      exact Nat.le_add_right _ _
  | jump jumps => exact params_le_fetch state instruction
  | assign notDest notJump notShuffle => exact params_le_fetch state instruction

theorem params_le_run (state : Execution) {instructions : List Instruction}
    (standard : ∀ instruction ∈ instructions, instruction.Standard) :
    state.stack.params ≤ (state.run instructions).2.stack.params := by
  induction instructions generalizing state with
  | nil => exact Nat.le_refl _
  | cons instruction rest ih =>
      rw [List.forall_mem_cons] at standard
      exact Nat.le_trans (params_le_step state standard.1.op) (ih _ standard.2)

end Execution

end EvmLift
