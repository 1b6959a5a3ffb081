import EvmLift.Proofs.Linking.Renaming

/-!
# Blocks are lifted independently

All blocks of a program draw their names from one supply, and nothing else passes from one block
to the next. Lifting a block with any supply is lifting it with a new one and moving the names.
So blocks can be lifted each on its own, and put together afterwards.
-/

namespace EvmLift

/-- A value after so many variables were named before. -/
def Value.shift (offset : Nat) : Value → Value
  | .var id => .var (offset + id)
  | value => value

namespace SymbolicStack

/-- A stack with all live values moved. -/
def shift (offset : Nat) (stack : SymbolicStack) : SymbolicStack :=
  { stack with items := stack.items.map (Value.shift offset) }

variable (offset : Nat) (stack : SymbolicStack)

theorem popMany_shift (count : Nat) :
    (stack.shift offset).popMany count =
      ((stack.popMany count).1.map (Value.shift offset), (stack.popMany count).2.shift offset) := by
  induction count generalizing stack with
  | zero => rfl
  | succ count ih =>
      have first : (stack.shift offset).pop =
          (stack.pop.1.shift offset, stack.pop.2.shift offset) := by
        cases items : stack.items <;> simp [pop, shift, items, Value.shift]
      simp only [popMany, first, ih, List.map_cons]

theorem pushAll_shift (values : List Value) :
    (stack.shift offset).pushAll (values.map (Value.shift offset)) =
      (stack.pushAll values).shift offset := by
  simp [pushAll, shift]

theorem dup_shift (depth : Nat) :
    (stack.shift offset).dup depth = (stack.dup depth).shift offset := by
  rw [dup_eq, dup_eq, popMany_shift, ← pushAll_shift, List.map_append]
  cases last : (stack.popMany depth).1.getLast? <;> simp [last, List.getLast?_map]

theorem swap_shift (depth : Nat) :
    (stack.shift offset).swap depth = (stack.swap depth).shift offset := by
  simp only [swap, popMany_shift, ← map_exchangeEnds, pushAll_shift]

end SymbolicStack

namespace Execution

/-- A state with all variables moved. -/
def shift (offset : Nat) (state : Execution) : Execution :=
  { state with stack := state.stack.shift offset, nextVar := offset + state.nextVar }

variable (offset : Nat) (state : Execution)

theorem targets_shift (count : Nat) :
    (state.shift offset).targets count = (state.targets count).map (Value.shift offset) := by
  rw [targets, targets, shift, ← List.map_add_range', List.map_map, List.map_map]
  rfl

theorem emit_shift (instruction : Instruction) (operands : List Value) :
    (state.shift offset).emit instruction (operands.map (Value.shift offset)) =
      ((state.emit instruction operands).1.rename (Value.shift offset),
        (state.emit instruction operands).2.shift offset) := by
  have callee : (((operands.map (Value.shift offset)).head?.map Callee.computed).getD .fault) =
      ((operands.head?.map Callee.computed).getD .fault).rename (Value.shift offset) := by
    cases operands <;> rfl
  cases kind : instruction.op.kind
  case jump | jumpIf =>
    simp only [emit, kind, callee, Statement.rename]
    simp [shift, SymbolicStack.shift]
  all_goals
    simp only [emit, kind, targets_shift, Statement.rename, ← List.map_reverse]
    simp only [shift, SymbolicStack.pushAll_shift, Nat.add_assoc]

/-- A step moves along with the variables. -/
theorem step_shift (instruction : Instruction) :
    (state.shift offset).step instruction =
      ((state.step instruction).1.map (Statement.rename (Value.shift offset)),
        (state.step instruction).2.shift offset) := by
  cases dest : instruction.op.isJumpDest with
  | true => simp [step, dest]
  | false =>
      cases constants : instruction.constants with
      | some words =>
          have fixed : words.map Value.const =
              (words.map Value.const).map (Value.shift offset) := by
            rw [List.map_map]
            rfl
          simp only [step, dest, constants, Bool.false_eq_true, if_false, Option.map_some]
          rw [fixed, emit_shift, ← fixed]
      | none =>
          cases kind : instruction.op.kind
          case dup => simp [step, dest, constants, kind, shift, SymbolicStack.dup_shift]
          case swap => simp [step, dest, constants, kind, shift, SymbolicStack.swap_shift]
          all_goals
            have emitted := emit_shift offset
              { state with
                stack := (state.stack.popMany instruction.op.pops).2
                depth := state.depth - instruction.op.pops }
              instruction (state.stack.popMany instruction.op.pops).1
            simp only [shift] at emitted
            simp only [step, dest, constants, kind, Bool.false_eq_true, if_false, shift,
              SymbolicStack.popMany_shift, emitted, Option.map_some]

/-- A run moves along with the variables. -/
theorem run_shift (instructions : List Instruction) :
    (state.shift offset).run instructions =
      ((state.run instructions).1.map (Statement.rename (Value.shift offset)),
        (state.run instructions).2.shift offset) := by
  induction instructions generalizing state with
  | nil => rfl
  | cons instruction rest ih =>
      rw [run_cons, step_shift, ih, run_cons]
      cases (state.step instruction).1 <;> simp

end Execution

namespace Routine

/-- A routine that was lifted with a new supply, as it is lifted with another one. -/
def resume (supply : Supply) (routine : Routine) : Routine :=
  { routine.rename (Value.shift supply.nextVar) with
    name := Supply.routineName supply.nextRoutine }

/-- Put together routines that were each lifted with a new supply: every routine comes after the
variables of those before it. -/
def resumeAll (supply : Supply) : List Routine → List Routine
  | [] => []
  | routine :: rest =>
      routine.resume supply ::
        resumeAll ⟨supply.nextVar + routine.assigned.length, supply.nextRoutine + 1⟩ rest

end Routine

namespace Block

/-- Lift blocks in order with one supply, and go on after one that is no routine. -/
def attempts (supply : Supply) : List Block → List (Except LiftError Routine)
  | [] => []
  | block :: rest => (block.lift supply).1 :: attempts (block.lift supply).2 rest

theorem run_eq_shift (block : Block) (supply : Supply) :
    Execution.run { nextVar := supply.nextVar } block.instructions =
      ((Execution.run { nextVar := 0 } block.instructions).1.map
          (Statement.rename (Value.shift supply.nextVar)),
        (Execution.run { nextVar := 0 } block.instructions).2.shift supply.nextVar) :=
  Execution.run_shift supply.nextVar { nextVar := 0 } block.instructions

/-- Lifting with any supply is lifting with a new one and moving the names. -/
theorem fst_lift (block : Block) (supply : Supply) :
    (block.lift supply).1 = (block.lift {}).1.map (Routine.resume supply) := by
  have expects : block.expected supply = block.expected {} := by
    rw [expected, run_eq_shift]
    rfl
  have leaves : block.live supply = block.live {} := by
    rw [live, run_eq_shift]
    exact List.length_map _
  have moves : block.routine supply = (block.routine {}).resume supply := by
    rw [routine, run_eq_shift]
    rfl
  simp only [lift_eq_ite, expects, leaves, moves, apply_ite (Except.map (Routine.resume supply))]
  rfl

theorem eq_routine_of_lift {block : Block} {supply : Supply} {routine : Routine}
    (lifts : (block.lift supply).1 = .ok routine) : routine = block.routine supply := by
  rw [lift_eq_ite] at lifts
  split at lifts
  · cases lifts
  · split at lifts
    · cases lifts
    · exact (Except.ok.inj lifts).symm

/-- What is left of a supply depends on the number of variables alone. -/
theorem snd_lift (block : Block) (supply : Supply) :
    (block.lift supply).2 =
      ⟨supply.nextVar + (block.routine {}).assigned.length, supply.nextRoutine + 1⟩ := by
  rcases Execution.assigned_run { nextVar := 0 } block.instructions with ⟨count, next, assigned⟩
  have size : (block.routine {}).assigned.length = count := by
    rw [Routine.assigned, routine]
    exact (congrArg List.length assigned).trans List.length_range'
  rw [lift_eq_ite, remaining, run_eq_shift, size, Execution.shift, next, Nat.zero_add]

/-- Calls that share a supply yield the routines of their blocks, or nothing. -/
theorem forall_attempts (supply : Supply) (blocks : List Block) :
    List.Forall₂ (fun outcome routine => ∀ result, outcome = .ok result → result = routine)
      (attempts supply blocks) (routines supply blocks) := by
  induction blocks generalizing supply with
  | nil => exact .nil
  | cons block rest ih => exact .cons (fun _ => eq_routine_of_lift) (ih _)

/-- Blocks that are lifted each with a new supply and then put together are lifted as with one
supply, and fail with the same error. -/
theorem liftAll_eq_mapM (supply : Supply) (blocks : List Block) :
    liftAll supply blocks =
      (blocks.mapM fun block : Block => (block.lift {}).1).map (Routine.resumeAll supply) := by
  induction blocks generalizing supply with
  | nil => rfl
  | cons block rest ih =>
      have lifted : block.lift supply =
          ((block.lift {}).1.map (Routine.resume supply),
            ⟨supply.nextVar + (block.routine {}).assigned.length, supply.nextRoutine + 1⟩) :=
        Prod.ext (fst_lift block supply) (snd_lift block supply)
      rw [liftAll, lifted, List.mapM_cons]
      cases lifts : (block.lift {}).1 with
      | error error => rfl
      | ok routine =>
          rw [← eq_routine_of_lift lifts]
          change (liftAll _ rest).map _ = _
          rw [ih]
          cases rest.mapM fun block : Block => (block.lift {}).1 <;> rfl

/-- Lifting depends on the supply only in the names. Blocks that share a supply never share a
variable or a name, whether or not they come out as routines. So blocks may be lifted each on its
own, and put together afterwards. -/
theorem lift_independent (supply : Supply) (blocks : List Block) :
    (∀ block : Block, (block.lift supply).1 = (block.lift {}).1.map (Routine.resume supply)) ∧
      ((routines supply blocks).flatMap Routine.assigned).Nodup ∧
      ((routines supply blocks).map Routine.name).Nodup ∧
      List.Forall₂ (fun outcome routine => ∀ result, outcome = .ok result → result = routine)
        (attempts supply blocks) (routines supply blocks) ∧
      liftAll supply blocks =
        (blocks.mapM fun block : Block => (block.lift {}).1).map
          (Routine.resumeAll supply) := by
  refine ⟨fun block => fst_lift block supply, ?_, ?_, forall_attempts supply blocks,
    liftAll_eq_mapM supply blocks⟩
  · rcases assigned_routines supply blocks with ⟨count, assigned⟩
    rw [assigned]
    exact List.nodup_range'
  · rw [map_name_routines]
    exact List.Nodup.map (fun _ _ => Supply.routineName_injective) List.nodup_range'

end Block

end EvmLift
