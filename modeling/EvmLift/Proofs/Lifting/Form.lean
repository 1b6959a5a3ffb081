import EvmLift.Proofs.Failure

/-!
# The form of lifted statements

Symbolic execution reads no parameter that it has not counted, assigns to variables only, and
leaves no statement for a shuffle. Its statements all have offsets, and its jumps go by values:
none of them enters a routine by name before the program is linked.
-/

namespace EvmLift

namespace Value

/-- A value that is no parameter beyond the given number of them. -/
def Within (arity : Nat) : Value → Prop
  | .param index => index < arity
  | _ => True

theorem Within.mono {few many : Nat} {value : Value} (within : value.Within few)
    (le : few ≤ many) : value.Within many := by
  cases value with
  | const | var => trivial
  | param index => exact Nat.lt_of_lt_of_le within le

end Value

namespace Statement

/-- The targets of an assignment. -/
def targets : Statement → List Value
  | .assign _ targets _ _ => targets
  | .jump .. => []

/-- The opcode of an assignment. -/
def op? : Statement → Option Opcode
  | .assign _ _ op _ => some op
  | .jump .. => none

/-- The offset of a statement; jumps that stand for falling through have none. -/
def offset? : Statement → Option Nat
  | .assign offset _ _ _ => some offset
  | .jump offset _ _ _ => offset

/-- The name of the routine that a jump enters. -/
def enters? : Statement → Option String
  | .jump _ (.routine name) _ _ => some name
  | _ => none

/-- A statement of a routine with the given number of parameters: what it reads is in reach,
what it assigns are variables, and it is no shuffle. -/
structure Formed (arity : Nat) (statement : Statement) : Prop where
  reads : ∀ value ∈ statement.reads, value.Within arity
  targets : ∀ target ∈ statement.targets, ∃ id, target = .var id
  op : ∀ op, statement.op? = some op → op.isShuffle = false

theorem Formed.mono {few many : Nat} {statement : Statement} (formed : statement.Formed few)
    (le : few ≤ many) : statement.Formed many where
  reads := by
    intro value member
    exact (formed.reads value member).mono le
  targets := formed.targets
  op := formed.op

/-- A statement that knows its offset and enters no routine by name. -/
structure Unlinked (statement : Statement) : Prop where
  offset : statement.offset?.isSome = true
  enters : statement.enters? = none

end Statement

namespace Routine

/-- A routine whose statements are well formed and whose returned values are in reach. -/
structure Formed (routine : Routine) : Prop where
  body : ∀ statement ∈ routine.body, statement.Formed routine.arity
  returns : ∀ value ∈ routine.returns, value.Within routine.arity

end Routine

namespace Instruction

/-- A shuffle carries no constants. -/
def ShufflesBare (instruction : Instruction) : Prop :=
  instruction.op.isShuffle = true → instruction.constants = none

theorem Plain.shufflesBare {instruction : Instruction} (plain : instruction.Plain) :
    instruction.ShufflesBare := by
  intro shuffles
  apply plain.bare
  intro push
  rcases Opcode.isShuffle_iff.mp shuffles with kind | kind <;> simp [push] at kind

end Instruction

/-- Rules give no constants to shuffles. -/
theorem Rule.Fired.shufflesBare {before : List Instruction} {next : Instruction}
    {replacement : Replacement} (fired : Fired before next replacement) :
    replacement.instruction.ShufflesBare := by
  intro shuffles
  cases fired with
  | jump kind | jumpIf kind => simp [Opcode.isShuffle, kind] at shuffles
  | operands accepts =>
      simp only [acceptsConstants, Bool.and_eq_true, Bool.not_eq_true'] at accepts
      rw [accepts.1.1.1] at shuffles
      cases shuffles
  | computed => cases shuffles

theorem Options.shufflesBare_instructions (options : Options) (code : Bytecode) :
    ∀ instruction ∈ options.instructions code, instruction.ShufflesBare := by
  have decoded : ∀ instruction ∈ code.decode, instruction.ShufflesBare := by
    intro instruction member
    exact (Bytecode.plain_of_mem_decode instruction member).shufflesBare
  exact options.forall_mem_instructions (fun _ _ _ fired _ => fired.shufflesBare) decoded

namespace Execution

variable {state : Execution} {instruction : Instruction}

/-- Every parameter on the stack is counted. -/
def Within (state : Execution) : Prop :=
  ∀ value ∈ state.stack.items, value.Within state.stack.params

/-- Taken values are in reach once the parameters among them are counted. -/
theorem within_popMany {stack : SymbolicStack} {count : Nat}
    (within : ∀ value ∈ stack.items, value.Within stack.params) :
    (∀ value ∈ (stack.popMany count).1, value.Within (stack.popMany count).2.params) ∧
      ∀ value ∈ (stack.popMany count).2.items,
        value.Within (stack.popMany count).2.params := by
  rw [SymbolicStack.values_popMany, SymbolicStack.items_popMany, SymbolicStack.params_popMany]
  have counted := Nat.le_add_right stack.params (count - stack.items.length)
  constructor
  · intro value member
    rcases List.mem_append.mp member with live | fresh
    · exact (within value (List.mem_of_mem_take live)).mono counted
    · rcases List.mem_map.mp fresh with ⟨index, below, rfl⟩
      exact (List.mem_range'_1.mp below).2
  · intro value member
    exact (within value (List.mem_of_mem_drop member)).mono counted

theorem Within.fetch (within : state.Within) (instruction : Instruction) :
    (∀ value ∈ (state.fetch instruction).1,
        value.Within (state.fetch instruction).2.stack.params) ∧
      (state.fetch instruction).2.Within := by
  unfold Execution.fetch
  split
  · constructor
    · intro value member
      rcases List.mem_map.mp member with ⟨word, _, rfl⟩
      trivial
    · exact within
  · exact within_popMany within

theorem Within.shuffled (within : state.Within) (op : Opcode) : (state.shuffled op).Within := by
  intro value member
  rcases List.mem_append.mp member with moved | kept
  · exact (within_popMany within).1 value (Opcode.mem_of_mem_rearrange moved)
  · exact (within_popMany within).2 value kept

/-- A step leaves a well formed statement, and counts the parameters that it reads. -/
theorem Within.step (within : state.Within) (standard : instruction.op.Standard)
    (bare : instruction.ShufflesBare) :
    (∀ statement ∈ (state.step instruction).1.toList,
        statement.Formed (state.step instruction).2.stack.params) ∧
      (state.step instruction).2.Within := by
  have effect := effect_step state standard
  generalize (state.step instruction).1 = statement at effect
  generalize (state.step instruction).2 = next at effect
  rcases within.fetch instruction with ⟨operands, below⟩
  cases effect with
  | skip dest => exact ⟨by simp, within⟩
  | shuffle shuffles bare => exact ⟨by simp, within.shuffled instruction.op⟩
  | jump jumps =>
      constructor
      · rw [Option.toList_some, List.forall_mem_singleton]
        constructor
        · intro value member
          rcases mem_of_mem_reads_jump member with operand | passed
          · exact operands value operand
          · exact below value passed
        · intro target member
          cases member
        · intro op equal
          cases equal
      · exact below
  | assign notDest notJump notShuffle =>
      constructor
      · rw [Option.toList_some, List.forall_mem_singleton]
        constructor
        · exact operands
        · intro target member
          rcases List.mem_map.mp member with ⟨id, _, rfl⟩
          exact ⟨id, rfl⟩
        · intro op equal
          cases equal
          rw [← Bool.not_eq_true]
          intro shuffles
          exact notShuffle shuffles (bare shuffles)
      · intro value member
        rcases List.mem_append.mp member with target | older
        · rcases List.mem_map.mp (List.mem_reverse.mp target) with ⟨id, _, rfl⟩
          trivial
        · exact below value older

/-- Symbolic execution leaves well formed statements. -/
theorem Within.run (within : state.Within) {instructions : List Instruction}
    (standard : ∀ instruction ∈ instructions, instruction.Standard)
    (bare : ∀ instruction ∈ instructions, instruction.ShufflesBare) :
    (∀ statement ∈ (state.run instructions).1,
        statement.Formed (state.run instructions).2.stack.params) ∧
      (state.run instructions).2.Within := by
  induction instructions generalizing state with
  | nil => exact ⟨by simp, within⟩
  | cons instruction rest ih =>
      rw [List.forall_mem_cons] at standard bare
      rcases within.step standard.1.op bare.1 with ⟨first, next⟩
      rcases ih next standard.2 bare.2 with ⟨others, final⟩
      have counted := params_le_run (state.step instruction).2 standard.2
      rw [run_cons]
      constructor
      · intro statement member
        rcases List.mem_append.mp member with own | later
        · exact (first statement own).mono counted
        · exact others statement later
      · exact final

theorem unlinked_step (state : Execution) (standard : instruction.op.Standard) :
    ∀ statement ∈ (state.step instruction).1.toList, statement.Unlinked := by
  have effect := effect_step state standard
  generalize (state.step instruction).1 = statement at effect
  generalize (state.step instruction).2 = next at effect
  cases effect with
  | skip | shuffle => simp
  | jump =>
      rw [Option.toList_some, List.forall_mem_singleton]
      constructor
      · rfl
      · cases (state.fetch instruction).1.head? <;> rfl
  | assign =>
      rw [Option.toList_some, List.forall_mem_singleton]
      exact ⟨rfl, rfl⟩

theorem unlinked_run (state : Execution) {instructions : List Instruction}
    (standard : ∀ instruction ∈ instructions, instruction.Standard) :
    ∀ statement ∈ (state.run instructions).1, statement.Unlinked :=
  forall_mem_run (fun _ listed before => unlinked_step before (standard _ listed).op) state

end Execution

namespace Block

variable {blocks : List Block}

/-- The routines of blocks are well formed. -/
theorem formed_of_mem_routines
    (standard : ∀ block ∈ blocks, ∀ instruction ∈ block.instructions, instruction.Standard)
    (bare : ∀ block ∈ blocks, ∀ instruction ∈ block.instructions, instruction.ShufflesBare) :
    ∀ routine ∈ routines {} blocks, routine.Formed := by
  intro routine member
  rcases exists_of_mem_routines member with ⟨block, listed, own, rfl⟩
  have start : Execution.Within { nextVar := own.nextVar } := by simp [Execution.Within]
  rcases start.run (standard block listed) (bare block listed) with ⟨body, returns⟩
  exact ⟨body, returns⟩

/-- The statements of lifted blocks are not linked yet. -/
theorem unlinked_of_mem_routines
    (standard : ∀ block ∈ blocks, ∀ instruction ∈ block.instructions, instruction.Standard) :
    ∀ routine ∈ routines {} blocks, ∀ statement ∈ routine.body, statement.Unlinked := by
  intro routine member
  rcases exists_of_mem_routines member with ⟨block, listed, own, rfl⟩
  exact Execution.unlinked_run _ (standard block listed)

end Block

end EvmLift
