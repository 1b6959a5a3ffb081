import EvmLift.Proofs.Lifting.Scope

/-!
# Jumps by their offset

Every jump of a program that was lifted from ordered blocks is found by its offset, which no
other instruction has. Its target and its condition are read from the operands that it finds
or carries.
-/

namespace EvmLift

namespace Statement

/-- The target and the condition of a jump at an offset. -/
def jumpAt? (offset : Nat) : Statement → Option (Callee × Option Value)
  | .jump (some own) callee condition _ => if own = offset then some (callee, condition) else none
  | _ => none

end Statement

namespace Program

/-- The targets and conditions of the jumps at an offset. -/
def jumpsAt (program : Program) (offset : Nat) : List (Callee × Option Value) :=
  program.routines.flatMap fun routine => routine.body.filterMap (Statement.jumpAt? offset)

end Program

namespace Execution

/-- Where a jump on operands goes, and on what condition. -/
def heading (op : Opcode) (operands : List Value) : Callee × Option Value :=
  ((operands.head?.map Callee.computed).getD .fault, condition? op operands)

variable (state : Execution) {instruction : Instruction} {offset : Nat}

theorem filterMap_jumpAt?_step_of_ne (standard : instruction.op.Standard)
    (elsewhere : instruction.offset ≠ offset) :
    (state.step instruction).1.toList.filterMap (Statement.jumpAt? offset) = [] := by
  have effect := effect_step state standard
  generalize (state.step instruction).1 = statement at effect ⊢
  generalize (state.step instruction).2 = next at effect
  cases effect with
  | skip | shuffle => rfl
  | jump => simp [Statement.jumpAt?, elsewhere]
  | assign => rfl

theorem filterMap_jumpAt?_step (standard : instruction.op.Standard)
    (jumps : instruction.op.isJump = true) :
    (state.step instruction).1.toList.filterMap (Statement.jumpAt? instruction.offset) =
      [heading instruction.op (state.fetch instruction).1] := by
  have effect := effect_step state standard
  generalize (state.step instruction).1 = statement at effect ⊢
  generalize (state.step instruction).2 = next at effect
  cases effect with
  | skip dest => simp [Opcode.isJump, dest] at jumps
  | shuffle shuffles =>
      rcases Opcode.isShuffle_iff.mp shuffles with kind | kind <;>
        simp [Opcode.isJump, kind] at jumps
  | jump => simp [Statement.jumpAt?, heading]
  | assign _ notJump => simp [notJump] at jumps

/-- Instructions elsewhere leave no jump at an offset. -/
theorem filterMap_jumpAt?_run {instructions : List Instruction}
    (standard : ∀ instruction ∈ instructions, instruction.Standard)
    (elsewhere : ∀ instruction ∈ instructions, instruction.offset ≠ offset) :
    (state.run instructions).1.filterMap (Statement.jumpAt? offset) = [] := by
  rw [List.filterMap_eq_nil_iff]
  apply forall_mem_run
  intro instruction listed before
  rw [← List.filterMap_eq_nil_iff]
  exact filterMap_jumpAt?_step_of_ne before (standard instruction listed).op
    (elsewhere instruction listed)

/-- A jump whose offset no other instruction has is the one jump at this offset. -/
theorem filterMap_jumpAt?_run_of_jump {front back : List Instruction} {jump : Instruction}
    (standard : ∀ instruction ∈ front ++ jump :: back, instruction.Standard)
    (before : ∀ instruction ∈ front, instruction.offset ≠ jump.offset)
    (after : ∀ instruction ∈ back, instruction.offset ≠ jump.offset)
    (jumps : jump.op.isJump = true) :
    (state.run (front ++ jump :: back)).1.filterMap (Statement.jumpAt? jump.offset) =
      [heading jump.op ((state.run front).2.fetch jump).1] := by
  rw [List.forall_mem_append, List.forall_mem_cons] at standard
  obtain ⟨standardFront, standardJump, standardBack⟩ := standard
  rw [run_append, run_cons, List.filterMap_append, List.filterMap_append,
    filterMap_jumpAt?_run _ standardFront before,
    filterMap_jumpAt?_step _ standardJump.op jumps,
    filterMap_jumpAt?_run _ standardBack after]
  rfl

end Execution

namespace Block

/-- The routine of a block stands between those of the blocks around it. -/
theorem exists_routines_append (supply : Supply) (left right : List Block) (block : Block) :
    ∃ own next, routines supply (left ++ block :: right) =
      routines supply left ++ block.routine own :: routines next right := by
  induction left generalizing supply with
  | nil => exact ⟨supply, block.remaining supply, rfl⟩
  | cons first left ih =>
      obtain ⟨own, next, equal⟩ := ih (first.remaining supply)
      exact ⟨own, next, congrArg (first.routine supply :: ·) equal⟩

theorem jumpsAt_routines_eq_nil {blocks : List Block} {offset : Nat} (supply : Supply)
    (standard : ∀ block ∈ blocks, ∀ instruction ∈ block.instructions, instruction.Standard)
    (elsewhere : ∀ block ∈ blocks, ∀ instruction ∈ block.instructions,
      instruction.offset ≠ offset) :
    (Program.mk (routines supply blocks)).jumpsAt offset = [] := by
  rw [Program.jumpsAt, List.flatMap_eq_nil_iff]
  intro routine member
  obtain ⟨block, listed, own, rfl⟩ := exists_of_mem_routines member
  exact Execution.filterMap_jumpAt?_run _ (standard block listed) (elsewhere block listed)

/-- In a stream that stands in the order of its offsets no two instructions share one. -/
theorem offset_ne_of_pairwise {front back : List Instruction} {next : Instruction}
    (ordered : (front ++ next :: back).Pairwise (·.offset < ·.offset)) :
    (∀ instruction ∈ front, instruction.offset ≠ next.offset) ∧
      ∀ instruction ∈ back, instruction.offset ≠ next.offset := by
  obtain ⟨_, later, earlier⟩ := List.pairwise_append.mp ordered
  constructor
  · intro instruction member
    exact Nat.ne_of_lt (earlier instruction member next List.mem_cons_self)
  · intro instruction member
    exact Nat.ne_of_gt ((List.pairwise_cons.mp later).1 instruction member)

section

variable {blocks : List Block} {block : Block} {front back : List Instruction}
variable {jump : Instruction} {words : List Word}

/-- A jump of a block is the one jump at its offset, on the operands that it finds. -/
theorem exists_jumpsAt_routines
    (standard : ∀ block ∈ blocks, ∀ instruction ∈ block.instructions, instruction.Standard)
    (ordered : (blocks.flatMap Block.instructions).Pairwise (·.offset < ·.offset))
    (listed : block ∈ blocks) (placed : block.instructions = front ++ jump :: back)
    (jumps : jump.op.isJump = true) :
    ∃ own, block.routine own ∈ routines {} blocks ∧
      (Program.mk (routines {} blocks)).jumpsAt jump.offset =
        [Execution.heading jump.op
          ((Execution.run { nextVar := own.nextVar } front).2.fetch jump).1] := by
  obtain ⟨left, right, rfl⟩ := List.append_of_mem listed
  obtain ⟨own, next, equal⟩ := exists_routines_append {} left right block
  refine ⟨own, by simp [equal], ?_⟩
  -- The other instructions come before or after the jump.
  have around : ((left ++ block :: right).flatMap Block.instructions) =
      (left.flatMap Block.instructions ++ front) ++
        jump :: (back ++ right.flatMap Block.instructions) := by
    simp [placed]
  rw [around] at ordered
  obtain ⟨before, after⟩ := offset_ne_of_pairwise ordered
  rw [List.forall_mem_append] at before after
  rw [List.forall_mem_append, List.forall_mem_cons] at standard
  obtain ⟨standardLeft, standardBlock, standardRight⟩ := standard
  have outside := jumpsAt_routines_eq_nil {} standardLeft fun block member instruction inside =>
    before.1 instruction (List.mem_flatMap.mpr ⟨block, member, inside⟩)
  have outside' := jumpsAt_routines_eq_nil next standardRight fun block member instruction inside =>
    after.2 instruction (List.mem_flatMap.mpr ⟨block, member, inside⟩)
  rw [Program.jumpsAt] at outside outside'
  rw [placed] at standardBlock
  have inside := Execution.filterMap_jumpAt?_run_of_jump { nextVar := own.nextVar } standardBlock
    before.2 after.1 jumps
  have body : (block.routine own).body =
      (Execution.run { nextVar := own.nextVar } (front ++ jump :: back)).1 := by
    rw [← placed]
    rfl
  rw [Program.jumpsAt, equal, List.flatMap_append, List.flatMap_cons, outside, outside', body,
    inside]
  rfl

/-- A jump that carries constants goes by them. -/
theorem jumpsAt_of_carried
    (standard : ∀ block ∈ blocks, ∀ instruction ∈ block.instructions, instruction.Standard)
    (ordered : (blocks.flatMap Block.instructions).Pairwise (·.offset < ·.offset))
    (listed : block ∈ blocks) (placed : jump ∈ block.instructions)
    (jumps : jump.op.isJump = true) (carries : jump.constants = some words) :
    (Program.mk (routines {} blocks)).jumpsAt jump.offset =
      [Execution.heading jump.op (words.map Value.const)] := by
  obtain ⟨front, back, placed⟩ := List.append_of_mem placed
  obtain ⟨own, _, equal⟩ := exists_jumpsAt_routines standard ordered listed placed jumps
  simpa [Execution.fetch, carries] using equal

end

end Block

end EvmLift
