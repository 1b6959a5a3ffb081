import EvmLift.Bytecode.Decoding

/-!
# Standard opcodes and instructions

Opcodes are data, so nothing in their type ties the kind of an opcode to its numbers.
In the standard table the two agree, and every property of lifted code rests on that
agreement. This module states it, checks it on the table, and carries it over to
decoded instructions.
-/

namespace EvmLift

namespace Opcode

theorem isPush_iff {op : Opcode} : op.isPush = true ↔ op.kind = .push := by
  simp [isPush]

theorem isShuffle_iff {op : Opcode} : op.isShuffle = true ↔ op.kind = .dup ∨ op.kind = .swap := by
  simp [isShuffle]

theorem isJump_iff {op : Opcode} : op.isJump = true ↔ op.kind = .jump ∨ op.kind = .jumpIf := by
  simp [isJump]

theorem isJumpDest_iff {op : Opcode} : op.isJumpDest = true ↔ op.kind = .jumpDest := by
  simp [isJumpDest]

theorem kind_ne_of_isShuffle {op : Opcode} (shuffles : op.isShuffle = true) :
    op.kind ≠ .jumpDest := by
  rcases isShuffle_iff.mp shuffles with kind | kind <;> simp [kind]

theorem kind_ne_of_isJump {op : Opcode} (jumps : op.isJump = true) : op.kind ≠ .jumpDest := by
  rcases isJump_iff.mp jumps with kind | kind <;> simp [kind]

/-- What the kind of an opcode says about its other fields. -/
structure Standard (op : Opcode) : Prop where
  push : op.kind = .push → op.pops = 0 ∧ op.pushes = 1
  dup : op.kind = .dup → 0 < op.pops ∧ op.pushes = op.pops + 1
  swap : op.kind = .swap → 0 < op.pops ∧ op.pushes = op.pops
  jump : op.kind = .jump → op.pops = 1 ∧ op.pushes = 0
  jumpIf : op.kind = .jumpIf → op.pops = 2 ∧ op.pushes = 0
  jumpDest : op.kind = .jumpDest → op.pops = 0 ∧ op.pushes = 0
  /-- Only opcodes that are performed, and unconditional jumps, end a block. -/
  terminates : op.terminates = true → op.kind = .plain ∨ op.kind = .fault ∨ op.kind = .jump
  /-- An opcode that computes takes the operands of its operator and leaves one result. -/
  computes : ∀ operator, op.operator = some operator →
    op.kind = .plain ∧ op.pops = operator.arity ∧ op.pushes = 1

theorem Standard.pushes_of_isJump {op : Opcode} (standard : op.Standard)
    (jumps : op.isJump = true) : op.pushes = 0 := by
  rcases isJump_iff.mp jumps with kind | kind
  · exact (standard.jump kind).2
  · exact (standard.jumpIf kind).2

/-- Executable check of the standard numbers. -/
def isStandard (op : Opcode) : Bool :=
  (match op.kind with
    | .push => op.pops = 0 && op.pushes = 1
    | .dup => 0 < op.pops && op.pushes = op.pops + 1
    | .swap => 0 < op.pops && op.pushes = op.pops
    | .jump => op.pops = 1 && op.pushes = 0
    | .jumpIf => op.pops = 2 && op.pushes = 0
    | .jumpDest => op.pops = 0 && op.pushes = 0
    | .plain | .fault => true) &&
  (!op.terminates || op.kind = .plain || op.kind = .fault || op.kind = .jump) &&
  (match op.operator with
    | some operator => op.kind = .plain && op.pops = operator.arity && op.pushes = 1
    | none => true)

theorem Standard.of_isStandard {op : Opcode} (checked : op.isStandard = true) :
    op.Standard := by
  simp only [isStandard, Bool.and_eq_true, Bool.or_eq_true, Bool.not_eq_true',
    decide_eq_true_eq] at checked
  obtain ⟨⟨numbers, ends⟩, computed⟩ := checked
  constructor
  case terminates =>
    intro terminates
    simp only [terminates, Bool.true_eq_false, false_or] at ends
    exact or_assoc.mp ends
  case computes =>
    intro operator equal
    simp only [equal, Bool.and_eq_true, decide_eq_true_eq] at computed
    exact and_assoc.mp computed
  all_goals
    intro kind
    simpa [kind] using numbers

theorem isStandard_of_mem_assigned : ∀ op ∈ assigned, op.isStandard = true := by
  decide +kernel

theorem standard_push (width : Nat) : (push width).Standard :=
  .of_isStandard rfl

theorem standard_invalid : invalid.Standard :=
  .of_isStandard rfl

/-- Every byte stands for a standard opcode. -/
theorem standard_ofByte (byte : UInt8) : (ofByte byte).Standard := by
  unfold ofByte
  cases found : assigned.find? (fun op => op.byte = byte) with
  | none => exact .of_isStandard rfl
  | some op =>
      have listed := List.mem_of_find?_eq_some found
      exact .of_isStandard (isStandard_of_mem_assigned op listed)

end Opcode

namespace Instruction

/-- An instruction with a standard opcode, in which a push carries its constant. -/
structure Standard (instruction : Instruction) : Prop where
  op : instruction.op.Standard
  pushed : instruction.op.kind = .push → ∃ word, instruction.constants = some [word]

/-- What is pushed is the one constant of a push. -/
theorem Standard.of_pushed? {instruction : Instruction} (standard : instruction.Standard)
    {word : Word} (found : instruction.pushed? = some word) :
    instruction.op.kind = .push ∧ instruction.constants = some [word] := by
  unfold pushed? at found
  split at found
  next push =>
    have kind := Opcode.isPush_iff.mp push
    obtain ⟨carried, constants⟩ := standard.pushed kind
    rw [constants] at found
    cases found
    exact ⟨kind, constants⟩
  · cases found

/-- An instruction as decoding leaves it: only pushes carry constants. -/
structure Plain (instruction : Instruction) : Prop extends instruction.Standard where
  bare : instruction.op.kind ≠ .push → instruction.constants = none

end Instruction

namespace Bytecode

/-- Decoding yields standard instructions, and gives constants to pushes only. -/
theorem plain_of_mem_decodeFrom (offset : Nat) (code : Bytecode) :
    ∀ instruction ∈ (decodeFrom offset code).instructions, instruction.Plain := by
  fun_induction decodeFrom offset code with
  | case1 => simp
  | case2 offset byte rest op immediate truncated =>
      intro instruction member
      rw [List.mem_singleton] at member
      subst member
      exact ⟨⟨Opcode.standard_invalid, fun push => by cases push⟩, fun _ => rfl⟩
  | case3 offset byte rest op immediate complete constants following ih =>
      intro instruction member
      rcases List.mem_cons.mp member with rfl | later
      · refine ⟨⟨Opcode.standard_ofByte byte, ?_⟩, ?_⟩
        · intro push
          exact ⟨Word.ofBytes immediate, by simpa [constants, op, Opcode.isPush] using push⟩
        · intro other
          simpa [constants, op, Opcode.isPush] using other
      · exact ih instruction later

/-- No instruction starts before the offset that decoding starts at. -/
theorem le_offset_of_mem_decodeFrom (offset : Nat) (code : Bytecode) :
    ∀ instruction ∈ (decodeFrom offset code).instructions, offset ≤ instruction.offset := by
  fun_induction decodeFrom offset code with
  | case1 => simp
  | case2 => simp
  | case3 offset byte rest op immediate complete constants following ih =>
      intro instruction member
      rcases List.mem_cons.mp member with rfl | later
      · exact Nat.le_refl offset
      · have bound := ih instruction later
        omega

/-- Instructions stand in the order of their offsets. -/
theorem pairwise_offset_decodeFrom (offset : Nat) (code : Bytecode) :
    (decodeFrom offset code).instructions.Pairwise (·.offset < ·.offset) := by
  fun_induction decodeFrom offset code with
  | case1 => exact .nil
  | case2 => exact List.pairwise_singleton _ _
  | case3 offset byte rest op immediate complete constants following ih =>
      refine .cons ?_ ih
      intro instruction later
      have bound := le_offset_of_mem_decodeFrom _ _ instruction later
      show offset < instruction.offset
      omega

theorem plain_of_mem_decode {code : Bytecode} :
    ∀ instruction ∈ code.decode, instruction.Plain :=
  plain_of_mem_decodeFrom 0 code

theorem standard_of_mem_decode {code : Bytecode} :
    ∀ instruction ∈ code.decode, instruction.Standard := by
  intro instruction member
  exact (plain_of_mem_decode instruction member).toStandard

theorem pairwise_offset_decode (code : Bytecode) :
    code.decode.Pairwise (·.offset < ·.offset) :=
  pairwise_offset_decodeFrom 0 code

/-- The first instruction starts at offset zero. -/
theorem offset_head_decode {code : Bytecode} {first : Instruction} {rest : List Instruction}
    (decoded : code.decode = first :: rest) : first.offset = 0 := by
  cases code with
  | nil => simp [decode, decodeFrom] at decoded
  | cons byte code =>
      rw [decode, decodeFrom] at decoded
      split at decoded <;>
      · obtain ⟨rfl, _⟩ := List.cons.inj decoded
        rfl

end Bytecode

end EvmLift
