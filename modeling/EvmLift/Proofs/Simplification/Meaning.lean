import EvmLift.Proofs.Lifting.Meaning
import EvmLift.Proofs.Simplification.Blockwise
import Mathlib.Data.List.Nodup

/-!
# Simplification keeps the meaning of blocks

An instruction that carries its operands acts as it does after their pushes, and the push of
a computed result acts as the computation. The exception is the conditional jump: it takes its
constants in the other order than it would from the stack. A stream in which no conditional
jump carries constants never had one that did, as nothing takes them away.
-/

namespace EvmLift

namespace Instruction

/-- No conditional jump of a stream carries constants. -/
def Unfused (instructions : List Instruction) : Prop :=
  ∀ instruction ∈ instructions, instruction.op.kind = .jumpIf → instruction.constants = none

instance (instructions : List Instruction) : Decidable (Unfused instructions) :=
  inferInstanceAs (Decidable (∀ instruction ∈ instructions,
    instruction.op.kind = .jumpIf → instruction.constants = none))

end Instruction

namespace Rule

open Instruction (Unfused)

variable {rule : Rule} {before : List Instruction} {next : Instruction} {replacement : Replacement}

/-- A conditional jump that carries constants is neither absorbed nor replaced. -/
theorem Fired.unfused (fired : Fired before next replacement) (standard : next.Standard)
    (unfused : Unfused (replacement.instruction :: before.drop replacement.absorbed)) :
    Unfused (next :: before) := by
  obtain ⟨words, pushed⟩ := fired.pushed
  refine List.forall_mem_cons.mpr ⟨fun kind => ?_, fun instruction member kind => ?_⟩
  · cases fired with
    | jump _ bare | jumpIf _ bare => exact bare
    | operands accepts => simp [acceptsConstants, Opcode.isJump, kind] at accepts
    | computed computes =>
        rw [(standard.op.computes _ computes).1] at kind
        cases kind
  · rw [← List.take_append_drop replacement.absorbed before, List.mem_append] at member
    rcases member with absorbed | kept
    · rw [kind_of_mem_take pushed instruction absorbed] at kind
      cases kind
    · exact unfused instruction (List.mem_cons_of_mem _ kept) kind

/-- Absorbed pushes leave their constants on the stack. -/
theorem run_take {count : Nat} {words : List Word} (interpretation : Interpretation)
    (args : Nat → Word) (live : Live)
    (standard : ∀ instruction ∈ before, instruction.Standard)
    (pushed : pushedBefore? count before = some words) :
    live.run interpretation args (before.take count).reverse = live.pushAll words := by
  induction count generalizing before words with
  | zero =>
      cases pushed
      rfl
  | succ count ih =>
      cases before with
      | nil => cases pushed
      | cons nearest before =>
          rw [List.forall_mem_cons] at standard
          obtain ⟨word, others, constant, rest, rfl⟩ := pushedBefore?_succ_eq_some.mp pushed
          obtain ⟨push, constants⟩ := standard.1.of_pushed? constant
          rw [List.take_succ_cons, List.reverse_cons, Live.run_append, ih standard.2 rest,
            Live.run_cons, Live.run_nil, Live.step_push push constants]
          rfl

/-- The push of a computed result acts as the computation. -/
theorem step_computed {answer : List Observation → Event → Nat → Word} {args : Nat → Word}
    {live : Live} {operator : Operator} {operands : List Word} {value : Word}
    (standard : next.Standard) (computes : next.op.operator = some operator)
    (carried : next.constants = some operands)
    (computed : operator.compute? operands = some value) :
    live.step (.evaluating answer) args next = live.pushAll [value] := by
  obtain ⟨kind, _, one⟩ := standard.op.computes operator computes
  have notPush : next.op.isPush = false := by simp [Opcode.isPush, kind]
  rw [Live.step_eq_act (by simp [kind]) (by simp [carried]),
    Live.act_of_not_isJump (by simp [Opcode.isJump, kind])]
  simp [Live.fetch, carried, Live.perform, Live.pushAll, Event.results, notPush, one,
    Reading.sight, Interpretation.evaluating, computes, computed]

/-- A replacement acts as what it replaces. -/
theorem Fired.run {answer : List Observation → Event → Nat → Word} {args : Nat → Word}
    {live : Live} (fired : Fired before next replacement) (standard : next.Standard)
    (standardBefore : ∀ instruction ∈ before, instruction.Standard)
    (unfused : Unfused (replacement.instruction :: before.drop replacement.absorbed)) :
    live.run (.evaluating answer) args
        (replacement.instruction :: before.drop replacement.absorbed).reverse =
      live.run (.evaluating answer) args (next :: before).reverse := by
  have whole : before.reverse = (before.drop replacement.absorbed).reverse ++
      (before.take replacement.absorbed).reverse := by
    rw [← List.reverse_append, List.take_append_drop]
  rw [List.reverse_cons, List.reverse_cons, whole, Live.run_append, Live.run_append,
    Live.run_append]
  generalize live.run (.evaluating answer) args (before.drop replacement.absorbed).reverse = base
  -- What is left to compare are single steps on the stack below the absorbed pushes.
  suffices step : ∀ words, pushedBefore? replacement.absorbed before = some words →
      base.step (.evaluating answer) args replacement.instruction =
        (base.pushAll words).step (.evaluating answer) args next by
    obtain ⟨words, pushed⟩ := fired.pushed
    rw [run_take _ args base standardBefore pushed]
    exact step words pushed
  intro words pushed
  cases fired with
  | jump kind bare own =>
      cases own.symm.trans pushed
      refine (Live.step_pushAll bare (by simp [kind]) (by simp [Opcode.isShuffle, kind]) ?_).symm
      rw [length_of_pushedBefore? pushed, (standard.op.jump kind).1]
  | jumpIf kind bare own => simpa using unfused _ List.mem_cons_self kind
  | operands accepts own =>
      cases own.symm.trans pushed
      simp only [acceptsConstants, Bool.and_eq_true, Bool.not_eq_true', Option.isNone_iff_eq_none,
        bne_iff_ne] at accepts
      obtain ⟨⟨⟨notShuffle, _⟩, bare⟩, takes⟩ := accepts
      have notDest : next.op.kind ≠ .jumpDest := by
        intro dest
        exact takes (standard.op.jumpDest dest).1
      exact (Live.step_pushAll bare notDest notShuffle (length_of_pushedBefore? pushed)).symm
  | computed computes carried computed =>
      cases pushed
      rw [Live.step_push rfl rfl]
      exact (step_computed standard computes carried computed).symm

/-- A scan whose result has no conditional jump with constants started without one, and
keeps the meaning. -/
theorem MovesConstants.run_foldl (moves : MovesConstants rule)
    {answer : List Observation → Event → Nat → Word} {args : Nat → Word} {live : Live}
    {instructions : List Instruction} {passed : Scanned}
    (standardPassed : ∀ instruction ∈ passed.instructions, instruction.Standard)
    (standard : ∀ instruction ∈ instructions, instruction.Standard)
    (unfused : Unfused (instructions.foldl rule.step passed).instructions) :
    Unfused passed.instructions ∧ Unfused instructions ∧
      live.run (.evaluating answer) args
          (instructions.foldl rule.step passed).instructions.reverse =
        live.run (.evaluating answer) args (passed.instructions.reverse ++ instructions) := by
  induction instructions generalizing passed with
  | nil => exact ⟨unfused, by simp [Unfused], by simp⟩
  | cons next rest ih =>
      rw [List.forall_mem_cons] at standard
      rw [List.foldl_cons] at unfused ⊢
      cases fires : rule passed.instructions next with
      | none =>
          rw [step_eq_of_none fires] at unfused ⊢
          obtain ⟨old, oldRest, equal⟩ :=
            ih (List.forall_mem_cons.mpr ⟨standard.1, standardPassed⟩) standard.2 unfused
          obtain ⟨bare, oldPassed⟩ := List.forall_mem_cons.mp old
          exact ⟨oldPassed, List.forall_mem_cons.mpr ⟨bare, oldRest⟩, by simpa using equal⟩
      | some replacement =>
          have fired := moves.fired _ _ _ fires
          rw [step_eq_of_some fires] at unfused ⊢
          obtain ⟨old, oldRest, equal⟩ := ih
            (List.forall_mem_cons.mpr ⟨fired.standard standard.1, fun instruction member =>
              standardPassed instruction (List.mem_of_mem_drop member)⟩) standard.2 unfused
          obtain ⟨bare, oldPassed⟩ := List.forall_mem_cons.mp (fired.unfused standard.1 old)
          refine ⟨oldPassed, List.forall_mem_cons.mpr ⟨bare, oldRest⟩, ?_⟩
          rw [equal, Live.run_append, fired.run standard.1 standardPassed old, ← Live.run_append]
          simp

theorem MovesConstants.run_scan (moves : MovesConstants rule)
    {answer : List Observation → Event → Nat → Word} {args : Nat → Word} {live : Live}
    {instructions : List Instruction}
    (standard : ∀ instruction ∈ instructions, instruction.Standard)
    (unfused : Unfused (rule.scan instructions).instructions) :
    Unfused instructions ∧
      live.run (.evaluating answer) args (rule.scan instructions).instructions =
        live.run (.evaluating answer) args instructions := by
  have reversed : Unfused (instructions.foldl rule.step ⟨[], 0⟩).instructions := by
    intro instruction member
    exact unfused instruction (List.mem_reverse.mpr member)
  obtain ⟨_, old, equal⟩ := moves.run_foldl (by simp) standard reversed
  exact ⟨old, equal⟩

end Rule

namespace Instruction

/-- Simplification keeps what instructions do, unless it fuses a conditional jump. -/
theorem run_simplify {answer : List Observation → Event → Nat → Word} {args : Nat → Word}
    {live : Live} {instructions : List Instruction}
    (standard : ∀ instruction ∈ instructions, instruction.Standard)
    (unfused : Unfused (simplify instructions)) :
    live.run (.evaluating answer) args (simplify instructions) =
      live.run (.evaluating answer) args instructions := by
  refine (simplify_induction (motive := fun pass =>
    (∀ instruction ∈ pass instructions, instruction.Standard) ∧
      (Unfused (pass instructions) →
        live.run (.evaluating answer) args (pass instructions) =
          live.run (.evaluating answer) args instructions)) ⟨standard, fun _ => rfl⟩ ?_).2 unfused
  rintro pass rule moves ⟨standardPass, keeps⟩
  refine ⟨moves.standard_scan standardPass, fun unfusedScan => ?_⟩
  obtain ⟨old, equal⟩ := moves.run_scan standardPass unfusedScan
  exact equal.trans (keeps old)

end Instruction

namespace Block

/-- Two blocks become routines with one number of parameters that show and return the same on
all arguments, whatever the opcodes without an operator do. -/
def Equivalent (first second : Block) : Prop :=
  ∀ supply supply' : Supply, ∃ routine routine',
    (first.lift supply).1 = .ok routine ∧ (second.lift supply').1 = .ok routine' ∧
    routine'.arity = routine.arity ∧
    ∀ (answer : List Observation → Event → Nat → Word) (args : Nat → Word), ∃ meaning,
      routine.meaning? (.evaluating answer) (fun index => some (args index)) = some meaning ∧
      routine'.meaning? (.evaluating answer) (fun index => some (args index)) = some meaning

/-- Instructions that do the same on words make equivalent blocks. -/
theorem equivalent_of_run {first second : Block}
    (standard : ∀ instruction ∈ first.instructions, instruction.Standard)
    (standard' : ∀ instruction ∈ second.instructions, instruction.Standard)
    (same : ∀ answer args, Live.run (.evaluating answer) args {} second.instructions =
      Live.run (.evaluating answer) args {} first.instructions) :
    first.Equivalent second := by
  intro supply supply'
  refine ⟨first.routine supply, second.routine supply', by rw [lift_eq supply standard],
    by rw [lift_eq supply' standard'], ?_, fun answer args => ?_⟩
  · rw [arity_routine (.evaluating fun _ _ _ => 0) (fun _ => 0) second supply' standard',
      arity_routine (.evaluating fun _ _ _ => 0) (fun _ => 0) first supply standard, same]
  · refine ⟨_, meaning?_routine _ standard fun _ _ => rfl, ?_⟩
    rw [meaning?_routine _ standard' fun _ _ => rfl, same]

/-- The blocks of code and of the simplified code start at the same offsets, and those with
one offset are equivalent, unless simplification fuses a conditional jump. -/
theorem equivalent_of_mem_split_simplify (code : Bytecode)
    (unfused : Instruction.Unfused (Instruction.simplify code.decode)) :
    (split (Instruction.simplify code.decode)).map Block.offset =
        (split code.decode).map Block.offset ∧
      ((split code.decode).map Block.offset).Pairwise (· < ·) ∧
      ∀ raw ∈ split code.decode, ∀ simplified ∈ split (Instruction.simplify code.decode),
        simplified.offset = raw.offset → raw.Equivalent simplified := by
  have standard : ∀ instruction ∈ code.decode, instruction.Standard :=
    Bytecode.standard_of_mem_decode
  have ordered := pairwise_offset_split (Bytecode.pairwise_offset_decode code)
  have blocks := Blockwise.blockwise_simplify.split_pass code.decode standard
  have offsets : (split (Instruction.simplify code.decode)).map Block.offset =
      (split code.decode).map Block.offset := by
    simp [blocks, Function.comp_def]
  refine ⟨offsets, ordered, ?_⟩
  intro raw listed simplified listed' same
  have unfusedBlock := forall_mem_split unfused simplified listed'
  rw [blocks] at listed'
  obtain ⟨original, listedOriginal, rfl⟩ := List.mem_map.mp listed'
  have distinct : ((split code.decode).map Block.offset).Nodup := ordered.imp Nat.ne_of_lt
  rw [Blockwise.offset_onBlock] at same
  rw [Blockwise.instructions_onBlock] at unfusedBlock
  obtain rfl := List.inj_on_of_nodup_map distinct listedOriginal listed same
  have standardBlock := forall_mem_split standard original listed
  refine equivalent_of_run standardBlock ?_ fun answer args => ?_ <;>
    rw [Blockwise.instructions_onBlock]
  · exact Instruction.standard_simplify standardBlock
  · exact Instruction.run_simplify standardBlock unfusedBlock

/-- A sum of constants before a conditional jump whose condition is not constant. -/
theorem equivalent_of_mem_split_simplify_sum :
    Instruction.Unfused (Instruction.simplify
      (Bytecode.decode [0x60, 2, 0x60, 3, 0x01, 0x36, 0x60, 9, 0x57, 0x5b])) ∧
    Equivalent
      ⟨0, [⟨0, .push 1, some [2]⟩, ⟨2, .push 1, some [3]⟩, ⟨4, .ofByte 0x01, none⟩,
        ⟨5, .ofByte 0x36, none⟩, ⟨6, .push 1, some [9]⟩, ⟨8, .ofByte 0x57, none⟩]⟩
      ⟨0, [⟨4, .push 1, some [5]⟩, ⟨5, .ofByte 0x36, none⟩, ⟨6, .push 1, some [9]⟩,
        ⟨8, .ofByte 0x57, none⟩]⟩ :=
  ⟨by decide +kernel,
    (equivalent_of_mem_split_simplify [0x60, 2, 0x60, 3, 0x01, 0x36, 0x60, 9, 0x57, 0x5b]
      (by decide +kernel)).2.2 _ (by decide +kernel) _ (by decide +kernel) rfl⟩

end Block

end EvmLift
