import EvmLift.Proofs.Lifting.Balance
import EvmLift.Proofs.Scope

/-!
# Lifted programs are well scoped

Symbolic execution numbers variables in the order in which it assigns them, and its
stack holds only variables that it has assigned.
-/

namespace EvmLift

namespace Execution

variable {state : Execution} {instruction : Instruction}

/-- Every variable on the stack is known. -/
def Knows (known : List Nat) (state : Execution) : Prop :=
  ∀ id, .var id ∈ state.stack.items → id ∈ known

theorem mem_items_of_mem_popMany {stack : SymbolicStack} {count id : Nat}
    (member : .var id ∈ (stack.popMany count).1) : .var id ∈ stack.items := by
  simp only [SymbolicStack.values_popMany, List.mem_append, List.mem_map, reduceCtorEq,
    and_false, exists_false, or_false] at member
  exact List.mem_of_mem_take member

theorem Knows.fetch {known : List Nat} (knows : state.Knows known) (instruction : Instruction) :
    (∀ id, .var id ∈ (state.fetch instruction).1 → id ∈ known) ∧
      (state.fetch instruction).2.Knows known := by
  unfold Execution.fetch
  split
  · exact ⟨by simp, knows⟩
  · constructor
    · intro id member
      exact knows id (mem_items_of_mem_popMany member)
    · intro id member
      rw [SymbolicStack.items_popMany] at member
      exact knows id (List.mem_of_mem_drop member)

theorem Knows.shuffled {known : List Nat} (knows : state.Knows known) (op : Opcode) :
    (state.shuffled op).Knows known := by
  intro id member
  simp only [Execution.shuffled, SymbolicStack.pushAll, List.mem_append] at member
  rcases member with moved | kept
  · exact knows id (mem_items_of_mem_popMany (Opcode.mem_of_mem_rearrange moved))
  · rw [SymbolicStack.items_popMany] at kept
    exact knows id (List.mem_of_mem_drop kept)

theorem filterMap_id?_targets (state : Execution) (count : Nat) :
    (state.targets count).filterMap Value.id? = List.range' state.nextVar count := by
  simp [targets, List.filterMap_map, Function.comp_def, Value.id?]

/-- A step reads known variables and assigns the next ones. -/
theorem Knows.step {known : List Nat} (knows : state.Knows known)
    (standard : instruction.op.Standard) :
    Statement.Scoped known (state.step instruction).1.toList ∧
      (state.step instruction).2.Knows
        (known ++ (state.step instruction).1.toList.flatMap Statement.assigned) := by
  have effect := effect_step state standard
  generalize (state.step instruction).1 = statement at effect
  generalize (state.step instruction).2 = next at effect
  obtain ⟨operands, below⟩ := knows.fetch instruction
  cases effect with
  | skip dest => simpa [Statement.Scoped] using knows
  | shuffle shuffles bare => simpa [Statement.Scoped] using knows.shuffled instruction.op
  | jump jumps =>
      refine ⟨⟨fun id member => ?_, trivial⟩, fun id member => ?_⟩
      · rcases mem_of_mem_reads_jump member with operand | passed
        · exact operands id operand
        · exact below id passed
      · exact List.mem_append_left _ (below id member)
  | assign notDest notJump notShuffle =>
      refine ⟨⟨operands, trivial⟩, ?_⟩
      intro id member
      simp only [SymbolicStack.pushAll, List.mem_append, List.mem_reverse] at member
      rcases member with target | older
      · apply List.mem_append_right
        have fresh : id ∈ (state.targets instruction.op.pushes).filterMap Value.id? :=
          List.mem_filterMap.mpr ⟨_, target, rfl⟩
        simpa [Statement.assigned] using fresh
      · exact List.mem_append_left _ (below id older)

theorem Knows.run {instructions : List Instruction} {known : List Nat}
    (knows : state.Knows known)
    (standard : ∀ instruction ∈ instructions, instruction.Standard) :
    Statement.Scoped known (state.run instructions).1 ∧
      (state.run instructions).2.Knows
        (known ++ (state.run instructions).1.flatMap Statement.assigned) := by
  induction instructions generalizing state known with
  | nil => simpa [Statement.Scoped] using knows
  | cons instruction rest ih =>
      rw [List.forall_mem_cons] at standard
      obtain ⟨reads, knowsNext⟩ := knows.step standard.1.op
      obtain ⟨readsRest, knowsFinal⟩ := ih knowsNext standard.2
      rw [run_cons]
      refine ⟨reads.append readsRest, ?_⟩
      simpa [List.append_assoc] using knowsFinal

theorem assigned_emit (state : Execution) (instruction : Instruction) (operands : List Value) :
    ∃ count, (state.emit instruction operands).2.nextVar = state.nextVar + count ∧
      (state.emit instruction operands).1.assigned = List.range' state.nextVar count := by
  rw [emit]
  split
  · exact ⟨0, rfl, rfl⟩
  · exact ⟨0, rfl, rfl⟩
  · exact ⟨instruction.op.pushes, rfl, filterMap_id?_targets state _⟩

/-- A step assigns consecutive variables. -/
theorem assigned_step (state : Execution) (instruction : Instruction) :
    ∃ count, (state.step instruction).2.nextVar = state.nextVar + count ∧
      (state.step instruction).1.toList.flatMap Statement.assigned =
        List.range' state.nextVar count := by
  rw [step]
  split
  · exact ⟨0, rfl, rfl⟩
  · split
    · simpa using assigned_emit state instruction _
    · split
      · exact ⟨0, rfl, rfl⟩
      · exact ⟨0, rfl, rfl⟩
      · simpa using assigned_emit { state with stack := _, depth := _ } instruction _

/-- Symbolic execution assigns consecutive variables. -/
theorem assigned_run (state : Execution) (instructions : List Instruction) :
    ∃ count, (state.run instructions).2.nextVar = state.nextVar + count ∧
      (state.run instructions).1.flatMap Statement.assigned =
        List.range' state.nextVar count := by
  induction instructions generalizing state with
  | nil => exact ⟨0, rfl, rfl⟩
  | cons instruction rest ih =>
      obtain ⟨first, nextFirst, assignedFirst⟩ := assigned_step state instruction
      obtain ⟨others, nextOthers, assignedOthers⟩ := ih (state.step instruction).2
      refine ⟨first + others, ?_, ?_⟩
      · rw [run_cons, nextOthers, nextFirst, Nat.add_assoc]
      · rw [run_cons, List.flatMap_append, assignedFirst, assignedOthers, nextFirst,
          List.range'_append_1]

theorem proper_step (state : Execution) (standard : instruction.Standard) :
    ∀ statement ∈ (state.step instruction).1.toList, statement.Proper := by
  have effect := effect_step state standard.op
  generalize (state.step instruction).1 = statement at effect
  generalize (state.step instruction).2 = next at effect
  cases effect with
  | skip dest => simp
  | shuffle shuffles bare => simp
  | jump jumps => simp [Statement.Proper]
  | assign notDest notJump notShuffle =>
      simp only [Option.toList_some, List.mem_singleton, forall_eq, Statement.Proper]
      refine ⟨?_, ?_, fun _ => by simp [targets]⟩
      · intro push
        rw [Opcode.isPush_iff] at push
        obtain ⟨word, carried⟩ := standard.pushed push
        refine ⟨state.nextVar, word, ?_, ?_⟩
        · simp [targets, (standard.op.push push).2]
        · simp [fetch, carried]
      · intro push
        rw [Opcode.isPush_iff] at push
        rw [← Bool.not_eq_true]
        intro terminates
        rcases standard.op.terminates terminates with kind | kind | kind <;> simp [push] at kind

theorem proper_run (state : Execution) {instructions : List Instruction}
    (standard : ∀ instruction ∈ instructions, instruction.Standard) :
    ∀ statement ∈ (state.run instructions).1, statement.Proper :=
  forall_mem_run (fun _ listed before => proper_step before (standard _ listed)) state

end Execution

namespace Block

/-- The routines of blocks assign consecutive variables. -/
theorem assigned_routines (supply : Supply) (blocks : List Block) :
    ∃ count, (routines supply blocks).flatMap Routine.assigned =
      List.range' supply.nextVar count := by
  induction blocks generalizing supply with
  | nil => exact ⟨0, rfl⟩
  | cons block rest ih =>
      obtain ⟨first, nextFirst, assignedFirst⟩ :=
        Execution.assigned_run { nextVar := supply.nextVar } block.instructions
      obtain ⟨others, assignedOthers⟩ := ih (block.remaining supply)
      refine ⟨first + others, ?_⟩
      have next : (block.remaining supply).nextVar = supply.nextVar + first := nextFirst
      have assigned : (block.routine supply).assigned = List.range' supply.nextVar first :=
        assignedFirst
      rw [routines, List.flatMap_cons, assigned, assignedOthers, next, List.range'_append_1]

/-- Every routine of blocks is the routine of one of them. -/
theorem exists_of_mem_routines {supply : Supply} {blocks : List Block} {routine : Routine}
    (member : routine ∈ routines supply blocks) :
    ∃ block ∈ blocks, ∃ own, routine = block.routine own := by
  induction blocks generalizing supply with
  | nil => cases member
  | cons block rest ih =>
      rcases List.mem_cons.mp member with rfl | later
      · exact ⟨block, List.mem_cons_self, supply, rfl⟩
      · obtain ⟨found, mem, own, equal⟩ := ih later
        exact ⟨found, List.mem_cons_of_mem _ mem, own, equal⟩

/-- Lifting yields well scoped programs. -/
theorem scoped_routines {blocks : List Block}
    (standard : ∀ block ∈ blocks, ∀ instruction ∈ block.instructions, instruction.Standard) :
    (Program.mk (routines {} blocks)).Scoped where
  nodup := by
    obtain ⟨count, assigned⟩ := assigned_routines {} blocks
    rw [assigned]
    exact List.nodup_range'
  routines := by
    intro routine member
    obtain ⟨block, mem, own, rfl⟩ := exists_of_mem_routines member
    have knows : Execution.Knows [] { nextVar := own.nextVar } := by simp [Execution.Knows]
    obtain ⟨reads, returns⟩ := knows.run (standard block mem)
    exact ⟨Execution.proper_run _ (standard block mem), reads, returns⟩

end Block

end EvmLift
