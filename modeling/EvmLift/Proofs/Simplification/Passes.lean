import EvmLift.Proofs.Lifting.Demand
import EvmLift.Proofs.Simplification.Blockwise
import EvmLift.Proofs.Simplification.Width

/-!
# What every pass keeps

The three rules can be run over a stream in any order and any number of times. Every pass leaves
instructions that carry what their opcodes allow, at offsets that grow. It takes away pushes only,
and it turns only computations into pushes. The depth of the stack changes between two jump
destinations as it did before.
-/

namespace EvmLift

/-- A pass over a stream, with one of the rules of simplification. -/
inductive Pass where
  | fuseJumps
  | foldOperands
  | foldConstants
  deriving Repr, DecidableEq

namespace Pass

/-- The rule of a pass. -/
def rule : Pass → Rule
  | .fuseJumps => Rule.fuseJump
  | .foldOperands => Rule.foldOperands
  | .foldConstants => Rule.foldConstants

theorem movesConstants_rule (pass : Pass) : pass.rule.MovesConstants := by
  cases pass with
  | fuseJumps => exact Rule.movesConstants_fuseJump
  | foldOperands => exact Rule.movesConstants_foldOperands
  | foldConstants => exact Rule.movesConstants_foldConstants

/-- Run passes over a stream, one after the other. -/
def runAll (passes : List Pass) (instructions : List Instruction) : List Instruction :=
  passes.foldl (fun stream pass => (pass.rule.scan stream).instructions) instructions

example (instructions : List Instruction) :
    Instruction.simplify instructions = runAll [.fuseJumps, .foldOperands, .foldConstants,
      .fuseJumps, .foldOperands, .foldConstants, .foldOperands] instructions := rfl

end Pass

namespace Opcode

/-- Opcodes that end execution exceptionally take nothing from the stack. -/
theorem pops_of_fault {op : Opcode} (listed : op ∈ all) (fault : op.kind = .fault) :
    op.pops = 0 := by
  have table : ∀ op ∈ assigned, op.kind = .fault → op.pops = 0 := by decide +kernel
  rw [← ofByte_byte listed] at fault ⊢
  unfold ofByte at fault ⊢
  cases found : assigned.find? (fun other => other.byte = op.byte) with
  | none => rfl
  | some other =>
      rw [found] at fault
      exact table other (List.mem_of_find?_eq_some found) fault

/-- Whether no pass touches the opcode: it is no push, and it computes nothing. -/
def lasts (op : Opcode) : Bool :=
  !op.isPush && op.operator.isNone

end Opcode

namespace Instruction

/-- An instruction of the table that carries what its opcode allows: a push has one constant that
fits into its bytes, and anything else has all of its operands or none. -/
structure Fitted (instruction : Instruction) : Prop where
  listed : instruction.op ∈ Opcode.all
  push : instruction.op.kind = .push →
    ∃ word, instruction.constants = some [word] ∧ word.toNat < 256 ^ instruction.op.immediate
  sized : instruction.op.kind ≠ .push → ∀ words, instruction.constants = some words →
    words.length = instruction.op.pops
  bare : instruction.op.kind = .dup ∨ instruction.op.kind = .swap ∨
      instruction.op.kind = .jumpDest ∨ instruction.op.kind = .fault ∨
      (instruction.op.kind ≠ .push ∧ instruction.op.pops = 0) →
    instruction.constants = none

theorem Fitted.regular {instruction : Instruction} (fitted : instruction.Fitted) :
    instruction.Regular where
  listed := fitted.listed
  pushed := by
    intro push
    rcases fitted.push push with ⟨word, carried, _⟩
    exact ⟨word, carried⟩
  bare := by
    intro shuffles
    rcases Opcode.isShuffle_iff.mp shuffles with kind | kind
    · exact fitted.bare (.inl kind)
    · exact fitted.bare (.inr (.inl kind))
  sized := fitted.sized

/-- Where an instruction stands and what it is, if no pass touches it. -/
def place? (instruction : Instruction) : Option (Nat × Opcode) :=
  if instruction.op.lasts then some (instruction.offset, instruction.op) else none

/-- The instructions that no pass touches, in order. -/
def lasting (instructions : List Instruction) : List (Nat × Opcode) :=
  instructions.filterMap place?

@[simp] theorem lasting_append (front back : List Instruction) :
    lasting (front ++ back) = lasting front ++ lasting back :=
  List.filterMap_append

theorem lasting_of_pushes {instructions : List Instruction}
    (pushes : ∀ instruction ∈ instructions, instruction.op.kind = .push) :
    lasting instructions = [] := by
  rw [lasting, List.filterMap_eq_nil_iff]
  intro instruction member
  simp [place?, Opcode.lasts, Opcode.isPush, pushes instruction member]

@[simp] theorem net_append (front back : List Instruction) :
    net (front ++ back) = net front + net back := by
  simp [net]

/-- An instruction that carries its operands leaves those slots on the stack. -/
theorem Takes.delta_carrying {instruction : Instruction} (takes : instruction.Takes)
    (words : List Word) :
    ({ instruction with constants := some words } : Instruction).delta =
      instruction.op.pops + instruction.delta := by
  have carrying : ({ instruction with constants := some words } : Instruction).delta =
      instruction.op.pushes := delta_of_carried takes.notDest rfl
  rw [carrying, takes.delta, Opcode.effect]
  omega

theorem net_of_pushes {instructions : List Instruction}
    (standard : ∀ instruction ∈ instructions, instruction.Standard)
    (pushes : ∀ instruction ∈ instructions, instruction.op.kind = .push) :
    net instructions = instructions.length := by
  induction instructions with
  | nil => rfl
  | cons first rest ih =>
      rw [List.forall_mem_cons] at standard pushes
      rcases standard.1.pushed pushes.1 with ⟨word, carried⟩
      have notDest : first.op.kind ≠ .jumpDest := by simp [pushes.1]
      rw [net_cons, ih standard.2 pushes.2, delta_of_carried notDest carried,
        (standard.1.op.push pushes.1).2, List.length_cons]
      omega

/-- The changes of the depth between jump destinations, before the first and after the last. -/
def nets (instructions : List Instruction) : List Int :=
  (instructions.splitOnP (·.op.isJumpDest)).map net

theorem nets_of_unmarked {leading : List Instruction} (unmarked : Unmarked leading) :
    nets leading = [net leading] := by
  have whole : leading.splitOnP (·.op.isJumpDest) = [leading] := by
    rw [List.splitOnP_eq_singleton]
    intro instruction member
    simp [Opcode.isJumpDest, unmarked instruction member]
  rw [nets, whole, List.map_singleton]

theorem nets_append_dest {leading rest : List Instruction} {dest : Instruction}
    (unmarked : Unmarked leading) (kind : dest.op.kind = .jumpDest) :
    nets (leading ++ dest :: rest) = net leading :: nets rest := by
  have cut : (leading ++ dest :: rest).splitOnP (·.op.isJumpDest) =
      leading :: rest.splitOnP (·.op.isJumpDest) := by
    apply List.splitOnP_append_cons_of_forall_mem
    · intro instruction member
      simp [Opcode.isJumpDest, unmarked instruction member]
    · exact Opcode.isJumpDest_iff.mpr kind
  rw [nets, cut, List.map_cons, nets]

end Instruction

namespace Rule

open Instruction (lasting net nets)

variable {rule : Rule} {before : List Instruction} {next : Instruction} {replacement : Replacement}

namespace Fired

/-- A replacement carries what its opcode allows. -/
theorem fitted (fired : Fired before next replacement) (fitted : next.Fitted) :
    replacement.instruction.Fitted where
  listed := (fired.regular fitted.regular).listed
  push := by
    intro push
    cases fired with
    | jump kind | jumpIf kind =>
        rw [kind] at push
        cases push
    | operands accepts =>
        simp [acceptsConstants, (fitted.regular.standard.op.push push).1] at accepts
    | computed => exact ⟨_, rfl, Opcode.lt_pow_pushFor _⟩
  sized := (fired.regular fitted.regular).sized
  bare := by
    -- What takes constants has an operand, so it is none of the opcodes that must be bare.
    intro bare
    have standard := fitted.regular.standard.op
    cases fired with
    | jump kind => simp [kind, (standard.jump kind).1] at bare
    | jumpIf kind => simp [kind, (standard.jumpIf kind).1] at bare
    | operands accepts =>
        simp only [acceptsConstants, Bool.and_eq_true, Bool.not_eq_true', bne_iff_ne] at accepts
        have unshuffled := accepts.1.1.1
        have takes := accepts.2
        rcases bare with dup | swap | dest | fault | ⟨_, idle⟩
        · exact absurd (Opcode.isShuffle_iff.mpr (.inl dup)) (Bool.eq_false_iff.mp unshuffled)
        · exact absurd (Opcode.isShuffle_iff.mpr (.inr swap)) (Bool.eq_false_iff.mp unshuffled)
        · exact absurd (standard.jumpDest dest).1 takes
        · exact absurd (Opcode.pops_of_fault fitted.listed fault) takes
        · exact absurd idle takes
    | computed => simp [Opcode.pushFor, Opcode.pushOfWidth, Opcode.push] at bare

/-- A replacement leaves out the slots that the absorbed pushes have left. -/
theorem delta (fired : Fired before next replacement) (standard : next.Standard) :
    replacement.instruction.delta = replacement.absorbed + next.delta := by
  have notDest := fired.kind_ne_jumpDest standard
  cases fired with
  | jump kind bare =>
      rw [Instruction.Takes.delta_carrying ⟨notDest, bare⟩, (standard.op.jump kind).1]
  | jumpIf kind bare =>
      rw [Instruction.Takes.delta_carrying ⟨notDest, bare⟩, (standard.op.jumpIf kind).1]
  | operands accepts =>
      simp only [acceptsConstants, Bool.and_eq_true, Option.isNone_iff_eq_none] at accepts
      rw [Instruction.Takes.delta_carrying ⟨notDest, accepts.1.2⟩]
  | computed computes carried =>
      rw [Instruction.delta_of_carried notDest carried, (standard.op.computes _ computes).2.2]
      rfl

/-- The depth changes by a replacement as by all that it stands for. -/
theorem net_replaced (fired : Fired before next replacement)
    (standardBefore : ∀ instruction ∈ before, instruction.Standard) (standard : next.Standard) :
    net [replacement.instruction] =
      net ((before.take replacement.absorbed).reverse ++ [next]) := by
  rcases fired.pushed with ⟨words, pushed⟩
  have absorbed : net (before.take replacement.absorbed).reverse = replacement.absorbed := by
    rw [Instruction.net_of_pushes, List.length_reverse,
      List.length_take_of_le (le_length_of_pushedBefore? pushed)]
    · intro instruction member
      exact standardBefore instruction (List.mem_of_mem_take (List.mem_reverse.mp member))
    · intro instruction member
      exact kind_of_mem_take pushed instruction (List.mem_reverse.mp member)
  rw [Instruction.net_append, absorbed, Instruction.net_cons, fired.delta standard,
    Instruction.net_cons, Int.add_assoc]

/-- A computation is touched, and so is the push of its result. -/
theorem place?_eq (fired : Fired before next replacement) :
    replacement.instruction.place? = next.place? := by
  cases fired with
  | jump | jumpIf | operands => rfl
  | computed computes =>
      have gone : next.place? = none := by simp [Instruction.place?, Opcode.lasts, computes]
      rw [gone]
      rfl

theorem lasting_replaced (fired : Fired before next replacement) :
    lasting [replacement.instruction] =
      lasting ((before.take replacement.absorbed).reverse ++ [next]) := by
  rcases fired.pushed with ⟨words, pushed⟩
  have absorbed : lasting (before.take replacement.absorbed).reverse = [] := by
    apply Instruction.lasting_of_pushes
    intro instruction member
    exact kind_of_mem_take pushed instruction (List.mem_reverse.mp member)
  rw [Instruction.lasting_append, absorbed, List.nil_append, lasting, List.filterMap_cons,
    fired.place?_eq]
  rfl

end Fired

/-- What no replacement changes, wherever it stands, no scan changes. -/
theorem MovesConstants.measure_scan {β : Type} {measure : List Instruction → β}
    (moves : MovesConstants rule)
    (congruent : ∀ front old new back, measure old = measure new →
      measure (front ++ (old ++ back)) = measure (front ++ (new ++ back)))
    (replaced : ∀ before next replacement, Fired before next replacement →
      (∀ instruction ∈ before, instruction.Standard) → next.Standard →
      measure [replacement.instruction] =
        measure ((before.take replacement.absorbed).reverse ++ [next]))
    {instructions : List Instruction}
    (standard : ∀ instruction ∈ instructions, instruction.Standard) :
    measure (rule.scan instructions).instructions = measure instructions := by
  suffices grown : ∀ passed : Scanned,
      (∀ instruction ∈ passed.instructions, instruction.Standard) →
      measure (instructions.foldl rule.step passed).instructions.reverse =
        measure (passed.instructions.reverse ++ instructions) from
    grown ⟨[], 0⟩ (by simp)
  induction instructions with
  | nil => simp
  | cons next rest ih =>
      rw [List.forall_mem_cons] at standard
      intro passed old
      rw [List.foldl_cons]
      cases fires : rule passed.instructions next with
      | none =>
          rw [step_eq_of_none fires, ih standard.2, List.reverse_cons, ← List.append_cons]
          exact List.forall_mem_cons.mpr ⟨standard.1, old⟩
      | some replacement =>
          have fired := moves.fired _ _ _ fires
          have parts : passed.instructions.reverse =
              (passed.instructions.drop replacement.absorbed).reverse ++
                (passed.instructions.take replacement.absorbed).reverse := by
            rw [← List.reverse_append, List.take_append_drop]
          rw [step_eq_of_some fires, ih standard.2, List.reverse_cons, parts, List.append_assoc,
            List.append_assoc, List.append_cons (List.reverse _) next]
          · exact congruent _ _ _ _ (replaced _ _ _ fired old standard.1)
          · rw [List.forall_mem_cons]
            refine ⟨fired.standard standard.1, ?_⟩
            intro instruction member
            exact old instruction (List.mem_of_mem_drop member)

namespace MovesConstants

variable {instructions : List Instruction}

theorem lasting_scan (moves : MovesConstants rule)
    (standard : ∀ instruction ∈ instructions, instruction.Standard) :
    lasting (rule.scan instructions).instructions = lasting instructions := by
  apply moves.measure_scan _ _ standard
  · intro front old new back equal
    simp only [Instruction.lasting_append, equal]
  · intro before next replacement fired _ _
    exact fired.lasting_replaced

theorem net_scan (moves : MovesConstants rule)
    (standard : ∀ instruction ∈ instructions, instruction.Standard) :
    net (rule.scan instructions).instructions = net instructions := by
  apply moves.measure_scan _ _ standard
  · intro front old new back equal
    simp only [Instruction.net_append, equal]
  · intro before next replacement fired
    exact fired.net_replaced

/-- The depth changes as before in every part of the stream between jump destinations. -/
theorem nets_scan (moves : MovesConstants rule)
    (standard : ∀ instruction ∈ instructions, instruction.Standard) :
    nets (rule.scan instructions).instructions = nets instructions := by
  induction instructions using Instruction.dest_induction with
  | unmarked leading unmarked =>
      have still := moves.blockwise_scan.unmarked leading standard unmarked
      rw [Instruction.nets_of_unmarked still, Instruction.nets_of_unmarked unmarked,
        moves.net_scan standard]
  | marked leading dest rest unmarked kind ih =>
      rw [List.forall_mem_append, List.forall_mem_cons] at standard
      rcases standard with ⟨standardLeading, standardDest, standardRest⟩
      have still := moves.blockwise_scan.unmarked leading standardLeading unmarked
      rw [moves.scan_append_dest leading rest kind standardDest,
        Instruction.nets_append_dest still kind, Instruction.nets_append_dest unmarked kind,
        moves.net_scan standardLeading, ih standardRest]

end MovesConstants

end Rule

namespace Instruction

/-- A stream that descends from decoded instructions by passes. -/
structure Descends (decoded stream : List Instruction) : Prop where
  fitted : ∀ instruction ∈ stream, instruction.Fitted
  ordered : stream.Pairwise (·.offset < ·.offset)
  /-- An instruction stands at the offset of a decoded one, and is that one if it is no push. -/
  origin : ∀ instruction ∈ stream, ∃ source ∈ decoded, source.offset = instruction.offset ∧
    (instruction.op.kind ≠ .push → source.op = instruction.op)
  lasting : lasting stream = lasting decoded
  nets : nets stream = nets decoded

/-- A pass over a descendant gives a descendant. -/
theorem Descends.scan {decoded stream : List Instruction} (descends : Descends decoded stream)
    {rule : Rule} (moves : rule.MovesConstants) :
    Descends decoded (rule.scan stream).instructions where
  fitted := by
    apply Rule.forall_mem_scan _ descends.fitted
    intro before next replacement fitted fires
    exact (moves.fired _ _ _ fires).fitted fitted
  ordered := moves.pairwise_offset_scan descends.ordered
  origin := by
    apply Rule.forall_mem_scan _ descends.origin
    rintro before next replacement ⟨source, listed, offset, op⟩ fires
    have fired := moves.fired _ _ _ fires
    refine ⟨source, listed, offset.trans fired.offset.symm, ?_⟩
    intro notPush
    rcases fired.op_eq_or_isPush with same | push
    · rw [same] at notPush ⊢
      exact op notPush
    · exact absurd push notPush
  lasting := by
    rw [moves.lasting_scan fun instruction member =>
      (descends.fitted instruction member).regular.standard]
    exact descends.lasting
  nets := by
    rw [moves.nets_scan fun instruction member =>
      (descends.fitted instruction member).regular.standard]
    exact descends.nets

theorem Descends.runAll {decoded stream : List Instruction} (descends : Descends decoded stream)
    (passes : List Pass) : Descends decoded (Pass.runAll passes stream) := by
  induction passes generalizing stream with
  | nil => exact descends
  | cons pass passes ih => exact ih (descends.scan pass.movesConstants_rule)

end Instruction

namespace Bytecode

/-- Decoded pushes carry constants that fit into their bytes. -/
theorem fits_of_mem_decodeFrom (offset : Nat) (code : Bytecode) :
    ∀ instruction ∈ (decodeFrom offset code).instructions, ∀ word,
      instruction.constants = some [word] → word.toNat < 256 ^ instruction.op.immediate := by
  fun_induction decodeFrom offset code with
  | case1 => simp
  | case2 => simp
  | case3 offset byte rest op immediate complete constants following ih =>
      rw [List.forall_mem_cons]
      refine ⟨?_, ih⟩
      intro word carried
      simp only [constants] at carried
      split at carried
      · cases carried
        calc (Word.ofBytes immediate).toNat
          _ ≤ Word.natOfBytes immediate := Nat.mod_le _ _
          _ < 256 ^ immediate.length := Word.natOfBytes_lt immediate
          _ ≤ 256 ^ op.immediate :=
              Nat.pow_le_pow_right (by decide) (List.length_take_le _ _)
      · cases carried

theorem fitted_of_mem_decode (code : Bytecode) :
    ∀ instruction ∈ code.decode, instruction.Fitted := by
  intro instruction member
  have plain := plain_of_mem_decode instruction member
  constructor
  · exact listed_of_mem_decodeFrom 0 code instruction member
  · intro push
    rcases plain.pushed push with ⟨word, carried⟩
    exact ⟨word, carried, fits_of_mem_decodeFrom 0 code instruction member word carried⟩
  · exact (regular_of_mem_decode instruction member).sized
  · intro bare
    apply plain.bare
    intro push
    simp [push] at bare

/-- Passes in any order and number leave a stream that descends from the decoded one. -/
theorem descends_runAll (code : Bytecode) (passes : List Pass) :
    Instruction.Descends code.decode (Pass.runAll passes code.decode) := by
  apply Instruction.Descends.runAll
  constructor
  · exact code.fitted_of_mem_decode
  · exact code.pairwise_offset_decode
  · intro instruction member
    exact ⟨instruction, member, rfl, fun _ => rfl⟩
  · rfl
  · rfl

end Bytecode

end EvmLift
