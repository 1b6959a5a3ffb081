import EvmLift.Proofs.Encoding
import EvmLift.Proofs.Simplification.Firing
import EvmLift.Proofs.Simplification.Width
import Mathlib.Data.Fin.VecNotation
import Mathlib.Data.Finset.Lattice.Fold
import Mathlib.Data.Fintype.Basic
import Mathlib.Order.Lattice.Nat

/-!
# Constant expressions

The code of an expression pushes its constants and applies its operators to what the code of
their operands leaves. A round of simplification replaces the operators whose operands are
constants, all of them at once and nothing else, so the expression gets lower by one. After as
many rounds as it is high, one push of its value is left.
-/

namespace EvmLift

namespace Instruction

/-- The push of the value, if there is one. -/
def computed (instruction : Instruction) : Instruction :=
  match instruction.result? with
  | some value => ⟨instruction.offset, Opcode.pushFor value, some [value]⟩
  | none => instruction

/-- Code for operands, the one on top of the stack last, and an instruction that follows it. -/
def stacked {count : Nat} (parts : Fin count → List Instruction)
    (last : Instruction) : List Instruction :=
  (List.ofFn parts).reverse.flatten ++ [last]

theorem map_stacked {count : Nat} (change : Instruction → Instruction)
    (parts : Fin count → List Instruction) (last : Instruction) :
    (stacked parts last).map change =
      stacked (fun index => (parts index).map change) (change last) := by
  simp [stacked, List.map_flatten, List.map_reverse, List.map_ofFn, Function.comp_def]

/-- Seen from behind, operands stand in the order of the stack. -/
theorem reverse_stacked {α : Type} {count : Nat} (part : α → List Instruction)
    (operands : Fin count → α) (last : Instruction) :
    (stacked (fun index => part (operands index)) last).reverse =
      last :: (List.ofFn operands).flatMap fun operand => (part operand).reverse := by
  simp [stacked, List.reverse_flatten, List.flatMap, List.map_ofFn, Function.comp_def]

theorem mem_stacked {count : Nat} {parts : Fin count → List Instruction}
    {last instruction : Instruction} :
    instruction ∈ stacked parts last ↔
      (∃ index, instruction ∈ parts index) ∨ instruction = last := by
  simp [stacked, List.mem_ofFn]

end Instruction

namespace Rule

/-- A rule that looks at single instructions changes each of them in its place. -/
theorem scan_eq_map {rule : Rule} {change : Instruction → Instruction}
    {instructions : List Instruction}
    (each : ∀ next ∈ instructions, ∀ passed : Scanned,
      (rule.step passed next).instructions = change next :: passed.instructions) :
    (rule.scan instructions).instructions = instructions.map change := by
  suffices grown : ∀ passed : Scanned, (instructions.foldl rule.step passed).instructions =
      (instructions.map change).reverse ++ passed.instructions by
    rw [scan, grown, List.append_nil, List.reverse_reverse]
  induction instructions with
  | nil => simp
  | cons next rest ih =>
      rw [List.forall_mem_cons] at each
      intro passed
      rw [List.foldl_cons, ih each.2, each.1, List.map_cons, List.reverse_cons, List.append_assoc,
        List.singleton_append]

theorem scan_foldConstants (instructions : List Instruction) :
    (foldConstants.scan instructions).instructions = instructions.map Instruction.computed := by
  apply scan_eq_map
  intro next _ passed
  have rule := foldConstants_eq passed.instructions next
  unfold Instruction.computed
  cases result : next.result? with
  | none =>
      rw [result] at rule
      rw [step_eq_of_none rule]
  | some value =>
      rw [result] at rule
      rw [step_eq_of_some rule]
      rfl

end Rule

/-- An opcode of the table that computes its result from its operands alone. -/
structure Computation where
  op : Opcode
  operator : Operator
  listed : op ∈ Opcode.all
  computes : op.operator = some operator

namespace Computation

variable (computation : Computation)

theorem standard : computation.op.Standard :=
  Opcode.standard_of_mem_all computation.listed

theorem kind : computation.op.kind = .plain :=
  (computation.standard.computes _ computation.computes).1

theorem pops : computation.op.pops = computation.operator.arity :=
  (computation.standard.computes _ computation.computes).2.1

theorem pops_ne_zero : computation.op.pops ≠ 0 := by
  rw [computation.pops]
  cases computation.operator <;> decide

/-- The result on operands, top of the stack first. -/
def result (operands : Fin computation.op.pops → Word) : Word :=
  (computation.operator.compute? (List.ofFn operands)).get (by
    rw [Operator.isSome_compute?_iff, List.length_ofFn, computation.pops])

theorem compute?_eq (operands : Fin computation.op.pops → Word) :
    computation.operator.compute? (List.ofFn operands) = some (computation.result operands) :=
  (Option.some_get _).symm

end Computation

/-- An expression of constants, with the offsets of its instructions. Constants are pushed with
room to spare or without, and the first operand of an operator is the one on top of the stack. -/
inductive Expression where
  | push (offset width : Nat) (word : Word) (narrow : width ≤ 32)
      (fits : word.toNat < 256 ^ width)
  | apply (offset : Nat) (computation : Computation)
      (operands : Fin computation.op.pops → Expression)

namespace Expression

open Instruction (stacked)

/-- Where the last instruction stands. -/
def offset : Expression → Nat
  | .push offset .. => offset
  | .apply offset .. => offset

/-- The largest number of operators above a constant. -/
def height : Expression → Nat
  | .push .. => 0
  | .apply _ _ operands => (Finset.univ.sup fun index => (operands index).height) + 1

/-- The value, by the operators alone. -/
def value : Expression → Word
  | .push _ _ word _ _ => word
  | .apply _ computation operands => computation.result fun index => (operands index).value

/-- The code that leaves the value on the stack. The operand on top comes last. -/
def code : Expression → List Instruction
  | .push offset width word _ _ => [⟨offset, .push width, some [word]⟩]
  | .apply offset computation operands =>
      stacked (fun index => (operands index).code) ⟨offset, computation.op, none⟩

/-- Whether the expression is a constant. -/
def isPush : Expression → Bool
  | .push .. => true
  | .apply .. => false

/-- A constant with the narrowest push. -/
def constant (offset : Nat) (value : Word) : Expression :=
  .push offset (Opcode.pushFor value).immediate value
    (Opcode.immediate_pushFor_le value) (Opcode.lt_pow_pushFor value)

/-- The code after operators have taken those operands that are constants. -/
def handed : Expression → List Instruction
  | .push offset width word _ _ => [⟨offset, .push width, some [word]⟩]
  | .apply offset computation operands =>
      if ∀ index, (operands index).isPush then
        [⟨offset, computation.op, some (List.ofFn fun index => (operands index).value)⟩]
      else stacked (fun index => (operands index).handed) ⟨offset, computation.op, none⟩

/-- The expression with every operator on constants replaced by its result. -/
def reduce : Expression → Expression
  | .push offset width word narrow fits => .push offset width word narrow fits
  | .apply offset computation operands =>
      if ∀ index, (operands index).isPush then
        constant offset (computation.result fun index => (operands index).value)
      else .apply offset computation fun index => (operands index).reduce

/-- The last instruction is a push exactly if the expression is a constant. -/
theorem reverse_handed (expression : Expression) :
    ∃ last before, expression.handed.reverse = last :: before ∧
      (expression.isPush = true → last.pushed? = some expression.value ∧ before = []) ∧
      (expression.isPush = false → last.pushed? = none) := by
  cases expression with
  | push offset width word narrow fits =>
      refine ⟨_, [], rfl, ?_, ?_⟩
      · intro _
        exact ⟨rfl, rfl⟩
      · intro other
        cases other
  | apply offset computation operands =>
      have computes : ∀ constants,
          Instruction.pushed? ⟨offset, computation.op, constants⟩ = none := by
        simp [Instruction.pushed?, Opcode.isPush, computation.kind]
      rw [handed]
      split
      · refine ⟨_, _, rfl, ?_, fun _ => computes _⟩
        intro other
        cases other
      · refine ⟨_, _, Instruction.reverse_stacked handed operands _, ?_, fun _ => computes _⟩
        intro other
        cases other

/-- An operator finds constants before it only if all of its operands are constants, and those
of no other expression. -/
theorem pushedBefore?_handed (operands : List Expression) (before : List Instruction) :
    Rule.pushedBefore? operands.length
        (operands.flatMap (fun operand => operand.handed.reverse) ++ before) =
      if ∀ operand ∈ operands, operand.isPush then some (operands.map value) else none := by
  induction operands with
  | nil => simp [Rule.pushedBefore?]
  | cons first rest ih =>
      rcases first.reverse_handed with ⟨last, front, equal, constant, other⟩
      rw [List.flatMap_cons, equal]
      cases push : first.isPush with
      | true =>
          rcases constant push with ⟨pushed, rfl⟩
          simp only [List.length_cons, List.cons_append, List.nil_append, Rule.pushedBefore?,
            pushed, ih, List.forall_mem_cons, push, true_and]
          split <;> rfl
      | false => simp [Rule.pushedBefore?, other push, push]

theorem length_flatMap_handed {operands : List Expression}
    (constants : ∀ operand ∈ operands, operand.isPush = true) :
    (operands.flatMap fun operand => operand.handed.reverse).length = operands.length := by
  induction operands with
  | nil => rfl
  | cons first rest ih =>
      rw [List.forall_mem_cons] at constants
      rcases first.reverse_handed with ⟨last, front, equal, constant, _⟩
      rw [List.flatMap_cons, List.length_append, ih constants.2, equal, (constant constants.1).2,
        List.length_singleton, List.length_cons, Nat.add_comm]

/-- Operands come one after the other, the one on top of the stack last. -/
theorem foldl_operands {rule : Rule} {become : Expression → List Instruction}
    {operands : List Expression}
    (each : ∀ operand ∈ operands, ∀ passed : Scanned,
      (operand.code.foldl rule.step passed).instructions =
        (become operand).reverse ++ passed.instructions)
    (passed : Scanned) :
    ((operands.map code).reverse.flatten.foldl rule.step passed).instructions =
      operands.flatMap (fun operand => (become operand).reverse) ++ passed.instructions := by
  induction operands with
  | nil => rfl
  | cons first rest ih =>
      rw [List.forall_mem_cons] at each
      rw [List.map_cons, List.reverse_cons, List.flatten_concat, List.foldl_append, each.1,
        ih each.2, List.flatMap_cons, List.append_assoc]

/-- Operators take their operands where all of these are constants, whatever stands before. -/
theorem foldl_foldOperands (expression : Expression) (passed : Scanned) :
    (expression.code.foldl Rule.foldOperands.step passed).instructions =
      expression.handed.reverse ++ passed.instructions := by
  induction expression generalizing passed with
  | push offset width word narrow fits =>
      rw [code, List.foldl_cons, List.foldl_nil, Rule.step_eq_of_none rfl]
      rfl
  | apply offset computation operands ih =>
      have before := foldl_operands (List.forall_mem_ofFn_iff.mpr ih) passed
      rw [List.map_ofFn, Function.comp_def] at before
      have pushed := pushedBefore?_handed (List.ofFn operands) passed.instructions
      rw [← before, List.length_ofFn] at pushed
      have accepts : Rule.acceptsConstants ⟨offset, computation.op, none⟩ = true := by
        simp [Rule.acceptsConstants, Opcode.isShuffle, Opcode.isJump, computation.kind,
          computation.pops_ne_zero]
      rw [code, stacked, List.foldl_append, List.foldl_cons, List.foldl_nil, handed]
      split
      next constants =>
        have listed : ∀ operand ∈ List.ofFn operands, operand.isPush = true :=
          List.forall_mem_ofFn_iff.mpr constants
        rw [if_pos listed] at pushed
        have fires := (Rule.foldOperands_of_accepts accepts).trans (congrArg _ pushed)
        have size := length_flatMap_handed listed
        rw [List.length_ofFn] at size
        rw [Rule.step_eq_of_some fires, before, List.drop_left' size, List.map_ofFn]
        rfl
      next others =>
        rw [if_neg fun listed => others (List.forall_mem_ofFn_iff.mp listed)] at pushed
        have rests := (Rule.foldOperands_of_accepts accepts).trans (congrArg _ pushed)
        rw [Rule.step_eq_of_none rests, before, Instruction.reverse_stacked handed operands,
          List.cons_append]

theorem scan_foldOperands (expression : Expression) :
    (Rule.foldOperands.scan expression.code).instructions = expression.handed := by
  rw [Rule.scan, foldl_foldOperands, List.append_nil, List.reverse_reverse]

/-- Operators that have taken their operands become their results. -/
theorem map_computed_handed (expression : Expression) :
    expression.handed.map Instruction.computed = expression.reduce.code := by
  induction expression with
  | push => rfl
  | apply offset computation operands ih =>
      rw [handed, reduce]
      split
      next constants =>
        have result : Instruction.result? ⟨offset, computation.op,
            some (List.ofFn fun index => (operands index).value)⟩ =
              some (computation.result fun index => (operands index).value) := by
          simp [Instruction.result?, computation.computes, computation.compute?_eq]
        rw [List.map_singleton, Instruction.computed, result]
        rfl
      next others =>
        have bare : Instruction.computed ⟨offset, computation.op, none⟩ =
            ⟨offset, computation.op, none⟩ := by
          simp [Instruction.computed, Instruction.result?, computation.computes]
        rw [Instruction.map_stacked, bare, code]
        simp only [ih]

theorem kind_of_mem_code {expression : Expression} :
    ∀ instruction ∈ expression.code,
      instruction.op.kind = .push ∨ instruction.op.kind = .plain := by
  induction expression with
  | push => simp [code, Opcode.push]
  | apply offset computation operands ih =>
      intro instruction member
      rcases Instruction.mem_stacked.mp member with ⟨index, inside⟩ | rfl
      · exact ih index instruction inside
      · exact .inr computation.kind

/-- There are no jumps in an expression. -/
theorem scan_fuseJump (expression : Expression) :
    (Rule.fuseJump.scan expression.code).instructions = expression.code := by
  rw [Rule.scan_eq_map, List.map_id]
  intro next member passed
  have quiet : Rule.fuseJump passed.instructions next = none := by
    rw [Rule.fuseJump_eq]
    rcases kind_of_mem_code next member with kind | kind <;> simp [kind]
  rw [Rule.step_eq_of_none quiet, id]

/-- A round replaces the operators on constants by their results, and nothing else. -/
theorem simplifyOnce_code (expression : Expression) :
    Instruction.simplifyOnce expression.code = expression.reduce.code := by
  rw [Instruction.simplifyOnce, scan_fuseJump, scan_foldOperands,
    Rule.scan_foldConstants, map_computed_handed]

theorem simplifyRounds_code (expression : Expression) (rounds : Nat) :
    Instruction.simplifyRounds rounds expression.code = (reduce^[rounds] expression).code := by
  induction rounds generalizing expression with
  | zero => rfl
  | succ rounds ih =>
      rw [Instruction.simplifyRounds, simplifyOnce_code, ih, Function.iterate_succ_apply]

theorem isPush_iff {expression : Expression} :
    expression.isPush = true ↔ expression.height = 0 := by
  cases expression <;> simp [isPush, height]

/-- The operands are constants exactly if there is one operator only. -/
theorem forall_isPush_iff {offset : Nat} {computation : Computation}
    {operands : Fin computation.op.pops → Expression} :
    (∀ index, (operands index).isPush = true) ↔
      (apply offset computation operands).height = 1 := by
  rw [height, Nat.add_eq_right, ← Nat.bot_eq_zero, Finset.sup_eq_bot_iff]
  simp [isPush_iff]

/-- Reducing keeps the value. -/
theorem value_reduce (expression : Expression) : expression.reduce.value = expression.value := by
  induction expression with
  | push => rfl
  | apply offset computation operands ih =>
      rw [reduce]
      split
      · rfl
      · simp only [value, ih]

/-- Reducing makes an expression lower by one, unless it is a constant. -/
theorem height_reduce (expression : Expression) :
    expression.reduce.height = expression.height - 1 := by
  induction expression with
  | push => rfl
  | apply offset computation operands ih =>
      rw [reduce]
      split
      next constants =>
        rw [forall_isPush_iff.mp constants]
        rfl
      next others =>
        have more : (apply offset computation operands).height ≠ 1 :=
          mt forall_isPush_iff.mpr others
        rw [height] at more
        have lower : (Finset.univ.sup fun index => (operands index).height) - 1 =
            Finset.univ.sup fun index => (operands index).height - 1 := by
          apply Finset.apply_sup_eq_sup_comp_of_linearOrder (· - 1)
          · exact fun _ _ le => Nat.sub_le_sub_right le 1
          · rfl
        simp only [height, ih, ← lower]
        omega

theorem height_iterate_reduce (expression : Expression) (rounds : Nat) :
    (reduce^[rounds] expression).height = expression.height - rounds := by
  induction rounds with
  | zero => rfl
  | succ rounds ih => rw [Function.iterate_succ_apply', height_reduce, ih, Nat.sub_sub]

/-- The constant that is left in the end. -/
def folded (expression : Expression) : Expression :=
  if expression.isPush then expression else constant expression.offset expression.value

theorem folded_reduce (expression : Expression) : expression.reduce.folded = expression.folded := by
  have value := expression.value_reduce
  cases expression with
  | push => rfl
  | apply offset computation operands =>
      rw [reduce] at value ⊢
      split at value
      next constants =>
        rw [if_pos constants]
        rfl
      next others =>
        rw [if_neg others, folded, value]
        rfl

/-- After as many rounds as the expression is high, a constant is left. -/
theorem iterate_reduce_eq_folded {expression : Expression} {rounds : Nat}
    (high : expression.height ≤ rounds) : reduce^[rounds] expression = expression.folded := by
  induction rounds generalizing expression with
  | zero =>
      have constant := isPush_iff.mpr (Nat.le_zero.mp high)
      rw [folded, if_pos constant]
      rfl
  | succ rounds ih =>
      rw [Function.iterate_succ_apply, ih, folded_reduce]
      rw [height_reduce]
      omega

/-- Before that, the last operator stays and has operands with the same values. -/
theorem exists_iterate_reduce {offset : Nat} {computation : Computation}
    {operands : Fin computation.op.pops → Expression} {rounds : Nat}
    (higher : rounds < (apply offset computation operands).height) :
    ∃ left, reduce^[rounds] (apply offset computation operands) = apply offset computation left ∧
      ∀ index, (left index).value = (operands index).value := by
  induction rounds generalizing operands with
  | zero => exact ⟨operands, rfl, fun _ => rfl⟩
  | succ rounds ih =>
      have lower := height_reduce (apply offset computation operands)
      have others : ¬∀ index, (operands index).isPush = true := by
        intro constants
        rw [forall_isPush_iff.mp constants] at higher
        omega
      rw [reduce, if_neg others] at lower
      have still : rounds <
          (apply offset computation fun index => (operands index).reduce).height := by omega
      rcases ih still with ⟨left, equal, values⟩
      refine ⟨left, ?_, ?_⟩
      · rw [Function.iterate_succ_apply, reduce, if_neg others, equal]
      · intro index
        rw [values, value_reduce]

/-- A stream that is one push of the value. The push of a constant is its own, and that of a
computed value has the least number of bytes, not zero, that hold the value. -/
def PushedBy (expression : Expression) (stream : List Instruction) : Prop :=
  ∃ width, stream = [⟨expression.offset, .push width, some [expression.value]⟩] ∧
    (expression.height = 0 → stream = expression.code) ∧
    (expression.height ≠ 0 →
      IsLeast {bytes | 1 ≤ bytes ∧ expression.value.toNat < 256 ^ bytes} width)

theorem pushedBy_folded (expression : Expression) :
    expression.PushedBy expression.folded.code := by
  cases expression with
  | push offset width word narrow fits =>
      refine ⟨width, rfl, fun _ => rfl, ?_⟩
      intro operator
      exact absurd rfl operator
  | apply offset computation operands =>
      refine ⟨_, rfl, ?_, fun _ => Opcode.isLeast_immediate_pushFor _⟩
      intro constant
      cases constant

/-- What ends with an operator is not one push. -/
theorem not_pushedBy_apply (expression : Expression) (offset : Nat) (computation : Computation)
    (operands : Fin computation.op.pops → Expression) :
    ¬expression.PushedBy (apply offset computation operands).code := by
  rintro ⟨width, equal, _⟩
  have last := congrArg List.reverse equal
  rw [code, Instruction.reverse_stacked code operands, List.reverse_singleton,
    List.cons.injEq] at last
  -- A push carries a constant, and the operator carries nothing.
  cases congrArg Instruction.constants last.1

/-- As many rounds as the expression is high are enough, and fewer are not. -/
theorem pushedBy_simplifyRounds_iff (expression : Expression) (rounds : Nat) :
    expression.PushedBy (Instruction.simplifyRounds rounds expression.code) ↔
      expression.height ≤ rounds := by
  rw [simplifyRounds_code]
  constructor
  · intro pushed
    by_contra low
    rw [Nat.not_le] at low
    cases expression with
    | push => exact absurd low (Nat.not_lt_zero _)
    | apply offset computation operands =>
        rcases exists_iterate_reduce low with ⟨left, equal, _⟩
        rw [equal] at pushed
        exact not_pushedBy_apply _ _ _ _ pushed
  · intro high
    rw [iterate_reduce_eq_folded high]
    exact expression.pushedBy_folded

/-- Simplification hands the results of its last round to the operators. -/
theorem simplify_code (expression : Expression) :
    Instruction.simplify expression.code = (reduce^[Instruction.rounds] expression).handed := by
  rw [Instruction.simplify, simplifyRounds_code, scan_foldOperands]

theorem handed_folded (expression : Expression) :
    expression.folded.handed = expression.folded.code := by
  cases expression <;> rfl

/-- The last operator stays with its operands if one more round is needed. -/
theorem simplify_apply {offset : Nat} {computation : Computation}
    {operands : Fin computation.op.pops → Expression}
    (high : (apply offset computation operands).height = Instruction.rounds + 1) :
    Instruction.simplify (apply offset computation operands).code =
      [⟨offset, computation.op, some (List.ofFn fun index => (operands index).value)⟩] := by
  have low : Instruction.rounds < (apply offset computation operands).height := by omega
  rcases exists_iterate_reduce low with ⟨left, equal, values⟩
  have height := (apply offset computation operands).height_iterate_reduce Instruction.rounds
  rw [equal, high, Nat.add_sub_cancel_left] at height
  rw [simplify_code, equal, handed, if_pos (forall_isPush_iff.mpr height), funext values]

/-- A constant expression folds to one push of its value in as many rounds as it is high, and in
no fewer. Simplification folds what is not higher than its rounds. Of what is higher by one it
leaves the last operator, with all of its operands. -/
theorem folds_in_height (expression : Expression) :
    (∀ rounds, expression.PushedBy (Instruction.simplifyRounds rounds expression.code) ↔
      expression.height ≤ rounds) ∧
    (expression.height ≤ Instruction.rounds →
      expression.PushedBy (Instruction.simplify expression.code)) ∧
    (expression.height = Instruction.rounds + 1 →
      ∃ computation operands, expression = apply expression.offset computation operands ∧
        Instruction.simplify expression.code = [⟨expression.offset, computation.op,
          some (List.ofFn fun index => (operands index).value)⟩]) := by
  refine ⟨expression.pushedBy_simplifyRounds_iff, ?_, ?_⟩
  · intro high
    rw [simplify_code, iterate_reduce_eq_folded high, handed_folded]
    exact expression.pushedBy_folded
  · intro high
    cases expression with
    | push => cases high
    | apply offset computation operands =>
        exact ⟨computation, operands, rfl, simplify_apply high⟩

/-- The remainder `addmod(2 + 3, not(0), 7)`, with operands of different heights. -/
def remainder : Expression :=
  .apply 12 ⟨.computing 0x08 "addmod" .addmod, .addmod, by decide +kernel, rfl⟩ ![
    .apply 11 ⟨.computing 0x01 "add" .add "+", .add, by decide +kernel, rfl⟩ ![
      .push 9 1 2 (by decide) (by decide), .push 7 1 3 (by decide) (by decide)],
    .apply 6 ⟨.computing 0x19 "not" .not, .not, by decide +kernel, rfl⟩ ![
      .push 4 1 0 (by decide) (by decide)],
    .push 2 1 7 (by decide) (by decide)]

/-- One less than the remainder. -/
def difference : Expression :=
  .apply 13 ⟨.computing 0x03 "sub" .sub "-", .sub, by decide +kernel, rfl⟩ ![
    remainder, .push 0 1 1 (by decide) (by decide)]

example : difference.code =
    Bytecode.decode [0x60, 1, 0x60, 7, 0x60, 0, 0x19, 0x60, 3, 0x60, 2, 0x01, 0x08, 0x03] := by
  decide +kernel

theorem folds_in_height_difference :
    (remainder.height = 2 ∧ remainder.value = 6 ∧
      remainder.PushedBy (Instruction.simplify remainder.code)) ∧
    (difference.height = 3 ∧ difference.value = 5 ∧
      difference.PushedBy (Instruction.simplifyRounds 3 difference.code) ∧
      ¬difference.PushedBy (Instruction.simplifyRounds 2 difference.code) ∧
      ∃ computation operands, difference = apply 13 computation operands ∧
        Instruction.simplify difference.code = [⟨13, computation.op,
          some (List.ofFn fun index => (operands index).value)⟩]) := by
  have low : remainder.height = 2 := by decide +kernel
  have high : difference.height = 3 := by decide +kernel
  refine ⟨⟨low, by decide +kernel, ?_⟩, high, by decide +kernel, ?_, ?_, ?_⟩
  · exact (folds_in_height remainder).2.1 (Nat.le_of_eq low)
  · exact ((folds_in_height difference).1 3).mpr (Nat.le_of_eq high)
  · rw [(folds_in_height difference).1 2, high]
    decide
  · exact (folds_in_height difference).2.2 high

end Expression

end EvmLift
