import EvmLift.Proofs.Lifting.Form
import Mathlib.Data.List.Perm.Basic

/-!
# No value is lost or made up

A slot of the stack is either a parameter or a result that a statement assigns. Symbolic execution
hands every slot on until something takes it, and only copies put one on the stack twice. So what
the statements of a routine take and what it returns are its parameters and results, each once,
and one value more for every copy. What a jump passes on is not taken: it stays on the stack.
-/

namespace EvmLift

namespace Value

/-- Whether a value stands for a slot of the stack and is not a constant. -/
def isSlot : Value → Bool
  | .const _ => false
  | _ => true

/-- The results with the given numbers, and so many parameters. -/
def slots (ids : List Nat) (params : Nat) : List Value :=
  ids.map .var ++ (List.range params).map .param

theorem isSlot_of_mem_slots {ids : List Nat} {params : Nat} {value : Value}
    (member : value ∈ slots ids params) : value.isSlot = true := by
  rcases List.mem_append.mp member with result | param
  · rcases List.mem_map.mp result with ⟨id, _, rfl⟩
    rfl
  · rcases List.mem_map.mp param with ⟨index, _, rfl⟩
    rfl

/-- More parameters are more slots. -/
theorem slots_add (ids : List Nat) (params more : Nat) :
    slots ids (params + more) = slots ids params ++ (List.range' params more).map .param := by
  rw [slots, slots, List.range_add, List.map_append, List.append_assoc, List.range'_eq_map_range]

/-- More results are more slots. -/
theorem slots_append (ids new : List Nat) (params : Nat) :
    (slots (ids ++ new) params).Perm (slots ids params ++ new.map .var) := by
  rw [slots, slots, List.map_append, List.append_assoc, List.append_assoc]
  exact List.perm_append_comm.append_left _

theorem nodup_slots {ids : List Nat} (distinct : ids.Nodup) (params : Nat) :
    (slots ids params).Nodup := by
  rw [slots, List.nodup_append]
  refine ⟨distinct.map fun _ _ => Value.var.inj,
    List.nodup_range.map fun _ _ => Value.param.inj, ?_⟩
  intro result listed param counted
  rcases List.mem_map.mp listed with ⟨id, _, rfl⟩
  rcases List.mem_map.mp counted with ⟨index, _, rfl⟩
  simp

end Value

namespace Statement

/-- The values that a statement takes: the operands of an assignment, and what decides a jump. -/
def taken : Statement → List Value
  | .assign _ _ _ operands => operands
  | .jump _ callee condition _ => callee.value?.toList ++ condition.toList

end Statement

namespace Routine

/-- The values that the routine takes or returns, each as often as it does. -/
def spent (routine : Routine) : List Value :=
  routine.body.flatMap Statement.taken ++ routine.returns

/-- The results and parameters of a routine. -/
def slots (routine : Routine) : List Value :=
  Value.slots routine.assigned routine.arity

end Routine

theorem SymbolicStack.perm_exchangeEnds {α : Type} (values : List α) :
    (exchangeEnds values).Perm values := by
  cases values with
  | nil => exact .nil
  | cons first rest =>
      rcases rest.eq_nil_or_concat with rfl | ⟨others, last, rfl⟩
      · exact .refl _
      · simp only [exchangeEnds, List.concat_eq_append, List.getLast?_concat,
          List.dropLast_concat]
        exact ((List.perm_append_singleton first others).cons last).trans
          ((List.Perm.swap first last others).trans
            ((List.perm_append_singleton last others).symm.cons first))

namespace Opcode

/-- The value that a copy leaves twice. -/
def copies {α : Type} (op : Opcode) (values : List α) : List α :=
  if op.kind = .dup then values.getLast?.toList else []

/-- A shuffle keeps the values that it reaches, and copies one at most. -/
theorem perm_rearrange {α : Type} (op : Opcode) (values : List α) :
    (op.rearrange values).Perm (op.copies values ++ values) := by
  rw [rearrange, copies]
  split
  · exact .refl _
  · exact SymbolicStack.perm_exchangeEnds values

theorem mem_of_mem_copies {α : Type} {op : Opcode} {values : List α} {value : α}
    (member : value ∈ op.copies values) : value ∈ values := by
  apply op.mem_of_mem_rearrange
  exact (op.perm_rearrange values).symm.subset (List.mem_append_left _ member)

theorem Standard.length_copies {α : Type} {op : Opcode} (standard : op.Standard)
    {values : List α} (size : values.length = op.pops) :
    (op.copies values).length = if op.kind = .dup then 1 else 0 := by
  rw [copies]
  split
  next kind =>
    have positive := (standard.dup kind).1
    rcases values.eq_nil_or_concat with rfl | ⟨others, last, rfl⟩
    · rw [List.length_nil] at size
      omega
    · simp
  · rfl

end Opcode

namespace SymbolicStack

variable {stack : SymbolicStack} {ids : List Nat} {spent copies : List Value}

/-- All slots are accounted for: those that were taken and those on the stack are the slots there
are and the copies that were made of them. -/
structure Accounts (ids : List Nat) (spent copies : List Value) (stack : SymbolicStack) :
    Prop where
  perm : (spent.filter Value.isSlot ++ stack.items).Perm
    (Value.slots ids stack.params ++ copies)
  copied : ∀ value ∈ copies, value ∈ Value.slots ids stack.params

namespace Accounts

theorem mem_slots (accounts : stack.Accounts ids spent copies) {value : Value}
    (member : value ∈ spent.filter Value.isSlot ++ stack.items) :
    value ∈ Value.slots ids stack.params := by
  rcases List.mem_append.mp (accounts.perm.subset member) with slot | copy
  · exact slot
  · exact accounts.copied value copy

theorem isSlot_of_mem_items (accounts : stack.Accounts ids spent copies) {value : Value}
    (member : value ∈ stack.items) : value.isSlot = true :=
  Value.isSlot_of_mem_slots (accounts.mem_slots (List.mem_append_right _ member))

/-- Only slots are ever on the stack. -/
theorem filter_popMany (accounts : stack.Accounts ids spent copies) (count : Nat) :
    (stack.popMany count).1.filter Value.isSlot = (stack.popMany count).1 := by
  apply List.filter_eq_self.mpr
  intro value member
  rw [values_popMany] at member
  rcases List.mem_append.mp member with live | fresh
  · exact accounts.isSlot_of_mem_items (List.mem_of_mem_take live)
  · rcases List.mem_map.mp fresh with ⟨index, _, rfl⟩
    rfl

/-- What is taken from the stack is accounted for as taken. -/
theorem popMany (accounts : stack.Accounts ids spent copies) (count : Nat) :
    (stack.popMany count).2.Accounts ids (spent ++ (stack.popMany count).1) copies := by
  have slots := Value.slots_add ids stack.params (count - stack.items.length)
  constructor
  · rw [List.filter_append, accounts.filter_popMany, values_popMany, items_popMany,
      params_popMany, slots, List.perm_iff_count]
    intro value
    have counted := accounts.perm.count_eq value
    have parts := congrArg (List.count value) (List.take_append_drop count stack.items)
    simp only [List.count_append] at counted parts ⊢
    omega
  · intro value member
    rw [params_popMany, slots]
    exact List.mem_append_left _ (accounts.copied value member)

/-- Slots that are moved stay on the stack, and those that are copied are accounted for. -/
theorem shuffle (accounts : stack.Accounts ids spent copies) (op : Opcode) :
    ((stack.popMany op.pops).2.pushAll (op.rearrange (stack.popMany op.pops).1)).Accounts ids
      spent (copies ++ op.copies (stack.popMany op.pops).1) := by
  have popped := accounts.popMany op.pops
  have reached := accounts.filter_popMany op.pops
  generalize (stack.popMany op.pops).1 = values at popped reached ⊢
  generalize (stack.popMany op.pops).2 = rest at popped ⊢
  constructor
  · rw [List.perm_iff_count]
    intro value
    have counted := popped.perm.count_eq value
    have moved := (op.perm_rearrange values).count_eq value
    simp only [pushAll, List.filter_append, reached, List.count_append] at counted moved ⊢
    omega
  · intro value member
    rcases List.mem_append.mp member with old | new
    · exact popped.copied value old
    · apply popped.mem_slots
      rw [List.filter_append, reached]
      exact List.mem_append_left _ (List.mem_append_right _ (Opcode.mem_of_mem_copies new))

/-- New results are accounted for on the stack. -/
theorem push (accounts : stack.Accounts ids spent copies) (new : List Nat) :
    (stack.pushAll (new.map Value.var).reverse).Accounts (ids ++ new) spent copies := by
  have slots := Value.slots_append ids new stack.params
  constructor
  · apply List.Perm.trans _ (slots.symm.append_right copies)
    rw [List.perm_iff_count]
    intro value
    have counted := accounts.perm.count_eq value
    simp only [pushAll, List.count_append, List.count_reverse] at counted ⊢
    omega
  · intro value member
    exact slots.symm.subset (List.mem_append_left _ (accounts.copied value member))

end Accounts

end SymbolicStack

namespace Execution

variable {state : Execution} {instruction : Instruction} {ids : List Nat}
variable {spent copies : List Value}

/-- Constants that an instruction carries are no slots. -/
theorem filter_fetch_of_carried (state : Execution) {words : List Word}
    (carried : instruction.constants = some words) :
    (state.fetch instruction).1.filter Value.isSlot = [] := by
  simp [fetch, carried, Value.isSlot]

theorem accounts_fetch (accounts : state.stack.Accounts ids spent copies)
    (instruction : Instruction) :
    (state.fetch instruction).2.stack.Accounts ids (spent ++ (state.fetch instruction).1)
      copies := by
  cases constants : instruction.constants with
  | some words =>
      have kept : (state.fetch instruction).2 = state := by simp only [fetch, constants]
      rw [kept]
      constructor
      · rw [List.filter_append, filter_fetch_of_carried state constants, List.append_nil]
        exact accounts.perm
      · exact accounts.copied
  | none => simpa only [fetch, constants] using accounts.popMany instruction.op.pops

/-- A jump takes those of its operands that are slots, and nothing else. -/
theorem filter_taken_jump (standard : instruction.op.Standard)
    (jumps : instruction.op.isJump = true) (offset : Option Nat) (items : List Value) :
    (Statement.jump offset
        (((state.fetch instruction).1.head?.map Callee.computed).getD .fault)
        (condition? instruction.op (state.fetch instruction).1) items).taken.filter
        Value.isSlot =
      (state.fetch instruction).1.filter Value.isSlot := by
  cases constants : instruction.constants with
  | some words =>
      have none := filter_fetch_of_carried state constants
      rw [none, List.filter_eq_nil_iff]
      intro value member
      rw [List.filter_eq_nil_iff] at none
      apply none value
      have read : value ∈ (Statement.jump offset
          (((state.fetch instruction).1.head?.map Callee.computed).getD .fault)
          (condition? instruction.op (state.fetch instruction).1) []).reads :=
        List.mem_append_left _ member
      exact (mem_of_mem_reads_jump read).resolve_right List.not_mem_nil
  | none =>
      have size := SymbolicStack.length_popMany state.stack instruction.op.pops
      have operands : (state.fetch instruction).1 = (state.stack.popMany instruction.op.pops).1 := by
        simp only [fetch, constants]
      rw [← operands] at size
      generalize (state.fetch instruction).1 = values at size
      rcases Opcode.isJump_iff.mp jumps with kind | kind
      · rw [(standard.jump kind).1] at size
        rcases List.length_eq_one_iff.mp size with ⟨target, rfl⟩
        simp [Statement.taken, condition?, kind, Callee.value?]
      · rw [(standard.jumpIf kind).1] at size
        rcases List.length_eq_two.mp size with ⟨target, condition, rfl⟩
        simp [Statement.taken, condition?, kind, Callee.value?]

/-- A step accounts for what it takes and assigns, and makes one copy if it is a copy. -/
theorem accounts_step (accounts : state.stack.Accounts ids spent copies)
    (standard : instruction.op.Standard) (bare : instruction.ShufflesBare) :
    ∃ copied, copied.length = (if instruction.op.kind = .dup then 1 else 0) ∧
      (state.step instruction).2.stack.Accounts
        (ids ++ (state.step instruction).1.toList.flatMap Statement.assigned)
        (spent ++ (state.step instruction).1.toList.flatMap Statement.taken)
        (copies ++ copied) := by
  have effect := effect_step state standard
  generalize (state.step instruction).1 = statement at effect
  generalize (state.step instruction).2 = next at effect
  have fetched := accounts_fetch accounts instruction
  cases effect with
  | skip dest =>
      refine ⟨[], by simp [dest], ?_⟩
      simpa using accounts
  | shuffle shuffles carriesNone =>
      refine ⟨instruction.op.copies (state.stack.popMany instruction.op.pops).1,
        standard.length_copies (SymbolicStack.length_popMany _ _), ?_⟩
      simpa [shuffled] using accounts.shuffle instruction.op
  | jump jumps =>
      have other : instruction.op.kind ≠ .dup := by
        rcases Opcode.isJump_iff.mp jumps with kind | kind <;> simp [kind]
      refine ⟨[], by simp [other], ?_⟩
      constructor
      · simpa [filter_taken_jump standard jumps, Statement.assigned] using fetched.perm
      · simpa [Statement.assigned] using fetched.copied
  | assign notDest notJump notShuffle =>
      have other : instruction.op.kind ≠ .dup := by
        intro kind
        have shuffles := Opcode.isShuffle_iff.mpr (.inl kind)
        exact notShuffle shuffles (bare shuffles)
      refine ⟨[], by simp [other], ?_⟩
      have pushed := fetched.push (List.range' state.nextVar instruction.op.pushes)
      rw [← targets] at pushed
      simpa [Statement.assigned, Statement.taken, filterMap_id?_targets] using pushed

/-- Execution accounts for all slots, with one copy for each instruction that copies. -/
theorem accounts_run {instructions : List Instruction}
    (accounts : state.stack.Accounts ids spent copies)
    (standard : ∀ instruction ∈ instructions, instruction.Standard)
    (bare : ∀ instruction ∈ instructions, instruction.ShufflesBare) :
    ∃ copied, copied.length = instructions.countP (fun instruction => instruction.op.kind = .dup) ∧
      (state.run instructions).2.stack.Accounts
        (ids ++ (state.run instructions).1.flatMap Statement.assigned)
        (spent ++ (state.run instructions).1.flatMap Statement.taken)
        (copies ++ copied) := by
  induction instructions generalizing state ids spent copies with
  | nil => exact ⟨[], rfl, by simpa using accounts⟩
  | cons instruction rest ih =>
      rw [List.forall_mem_cons] at standard bare
      rcases accounts_step accounts standard.1.op bare.1 with ⟨first, sizeFirst, next⟩
      rcases ih next standard.2 bare.2 with ⟨others, sizeOthers, final⟩
      refine ⟨first ++ others, ?_, ?_⟩
      · rw [List.length_append, List.countP_cons, sizeFirst, sizeOthers, Nat.add_comm]
        simp
      · rw [run_cons]
        simpa [List.append_assoc] using final

end Execution

namespace Routine

variable {routine : Routine} {copies : List Value}

theorem length_slots (routine : Routine) :
    routine.slots.length = routine.assigned.length + routine.arity := by
  simp [slots, Value.slots]

/-- The accounts of a routine: what is spent are its slots, and copies of some of them. -/
structure Conserves (routine : Routine) (copies : List Value) : Prop where
  perm : (routine.spent.filter Value.isSlot).Perm (routine.slots ++ copies)
  distinct : routine.slots.Nodup

theorem Conserves.mem_spent (conserves : routine.Conserves copies) :
    ∀ value ∈ routine.slots, value ∈ routine.spent := by
  intro value member
  have kept := conserves.perm.symm.subset (List.mem_append_left _ member)
  exact List.mem_of_mem_filter kept

theorem Conserves.countP_spent (conserves : routine.Conserves copies) :
    routine.spent.countP Value.isSlot =
      routine.assigned.length + routine.arity + copies.length := by
  rw [List.countP_eq_length_filter, conserves.perm.length_eq, List.length_append, length_slots]

/-- Without copies every slot is spent once. -/
theorem Conserves.count_spent (conserves : routine.Conserves []) :
    ∀ value ∈ routine.slots, routine.spent.count value = 1 := by
  intro value member
  have slot : value.isSlot = true := Value.isSlot_of_mem_slots member
  rw [← List.count_filter slot, conserves.perm.count_eq, List.append_nil]
  exact List.count_eq_one_of_mem conserves.distinct member

end Routine

namespace Block

/-- Every slot of a block is spent in its routine, and there is one copy for each instruction
that copies. -/
theorem exists_conserves (supply : Supply) {block : Block}
    (standard : ∀ instruction ∈ block.instructions, instruction.Standard)
    (bare : ∀ instruction ∈ block.instructions, instruction.ShufflesBare) :
    ∃ copies, copies.length = block.instructions.countP
        (fun instruction => instruction.op.kind = .dup) ∧
      (block.routine supply).Conserves copies := by
  let initial : Execution := { nextVar := supply.nextVar }
  have start : initial.stack.Accounts [] [] [] := ⟨.refl _, by simp⟩
  rcases Execution.accounts_run start standard bare with ⟨copies, size, accounts⟩
  refine ⟨copies, size, ?_, ?_⟩
  · have returned : (block.routine supply).returns.filter Value.isSlot =
        (block.routine supply).returns :=
      List.filter_eq_self.mpr fun value => accounts.isSlot_of_mem_items
    rw [Routine.spent, List.filter_append, returned]
    exact accounts.perm
  · rcases Execution.assigned_run { nextVar := supply.nextVar } block.instructions with
      ⟨count, _, assigned⟩
    apply Value.nodup_slots
    rw [Routine.assigned]
    exact assigned ▸ List.nodup_range'

/-- In the routine of a block of code, every result and every parameter is taken or returned.
Altogether there are as many such values as results and parameters, and one more for each copy.
So each occurs once if nothing is copied. -/
theorem conserves_of_mem_split (options : Options) (code : Bytecode) (supply : Supply)
    {block : Block} (listed : block ∈ Block.split (options.instructions code)) :
    ∃ routine rest, block.lift supply = (.ok routine, rest) ∧
      routine.slots.Nodup ∧
      (∀ value ∈ routine.slots, value ∈ routine.spent) ∧
      routine.spent.countP Value.isSlot = routine.assigned.length + routine.arity +
        block.instructions.countP (fun instruction => instruction.op.kind = .dup) ∧
      ((∀ instruction ∈ block.instructions, instruction.op.kind ≠ .dup) →
        ∀ value ∈ routine.slots, routine.spent.count value = 1) := by
  have standard := forall_mem_split (options.standard_instructions code) block listed
  have bare := forall_mem_split (options.shufflesBare_instructions code) block listed
  rcases exists_conserves supply standard bare with ⟨copies, size, conserves⟩
  refine ⟨_, _, lift_eq supply standard, conserves.distinct, conserves.mem_spent, ?_, ?_⟩
  · rw [conserves.countP_spent, size]
  · intro copyless
    have none : block.instructions.countP (fun instruction => instruction.op.kind = .dup) = 0 := by
      rw [List.countP_eq_zero]
      simpa using copyless
    rw [none, List.length_eq_zero_iff] at size
    rw [size] at conserves
    exact conserves.count_spent

/-- Of two parameters that are exchanged, one is stored at itself and the other one is returned:
three values, with one copy. Without the copy each of them is stored once. -/
theorem conserves_of_mem_split_stores :
    (∃ routine rest,
      (Block.mk 0 (Bytecode.decode [0x90, 0x80, 0x55])).lift {} = (.ok routine, rest) ∧
        routine.slots = [.param 0, .param 1] ∧ routine.spent.countP Value.isSlot = 3) ∧
      ∃ routine rest,
        (Block.mk 0 (Bytecode.decode [0x90, 0x55])).lift {} = (.ok routine, rest) ∧
          routine.slots = [.param 0, .param 1] ∧
          ∀ value ∈ routine.slots, routine.spent.count value = 1 := by
  constructor
  · have listed : Block.mk 0 (Bytecode.decode [0x90, 0x80, 0x55]) ∈
        Block.split (Options.instructions {} [0x90, 0x80, 0x55]) := by decide +kernel
    rcases conserves_of_mem_split {} _ {} listed with ⟨routine, rest, lifts, _, _, counted, _⟩
    have slots : ((Block.mk 0 (Bytecode.decode [0x90, 0x80, 0x55])).lift {}).1.map Routine.slots =
        .ok [.param 0, .param 1] := by decide +kernel
    have copies : (Bytecode.decode [0x90, 0x80, 0x55]).countP
        (fun instruction => instruction.op.kind = .dup) = 1 := by decide +kernel
    rw [lifts] at slots
    rw [copies, ← Routine.length_slots, Except.ok.inj slots] at counted
    exact ⟨routine, rest, lifts, Except.ok.inj slots, counted⟩
  · have listed : Block.mk 0 (Bytecode.decode [0x90, 0x55]) ∈
        Block.split (Options.instructions {} [0x90, 0x55]) := by decide +kernel
    rcases conserves_of_mem_split {} _ {} listed with ⟨routine, rest, lifts, _, _, _, once⟩
    have slots : ((Block.mk 0 (Bytecode.decode [0x90, 0x55])).lift {}).1.map Routine.slots =
        .ok [.param 0, .param 1] := by decide +kernel
    rw [lifts] at slots
    exact ⟨routine, rest, lifts, Except.ok.inj slots, once (by decide +kernel)⟩

end Block

end EvmLift
