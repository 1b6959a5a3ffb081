import EvmLift.Proofs.Failure
import EvmLift.Proofs.Lifting.Offsets
import EvmLift.Proofs.Linking.Inlining
import EvmLift.Proofs.Simplification.Blockwise

/-!
# Where fused jumps go

A jump that has taken its target from a push goes where it went before. A conditional jump
does not: it takes its two constants in the order of their pushes, while the stack hands them
over in the other order, so that target and condition are exchanged.
-/

namespace EvmLift

namespace Statement

theorem jumpAt?_inline (constant? : Nat → Option Word) (offset : Nat) (statement : Statement) :
    (statement.inline constant?).jumpAt? offset =
      (statement.jumpAt? offset).map
        (Prod.map (Callee.inline constant?) (Option.map (Value.inline constant?))) := by
  cases statement with
  | assign => rfl
  | jump own callee condition args =>
      cases own with
      | none => rfl
      | some own => by_cases here : own = offset <;> simp [inline, jumpAt?, here]

/-- Dead pushes are no jumps. -/
theorem jumpAt?_of_isDead {mentioned : Nat → Bool} {offset : Nat} {statement : Statement}
    (dead : statement.isDead mentioned = true) : statement.jumpAt? offset = none := by
  cases statement with
  | assign => rfl
  | jump => cases dead

end Statement

namespace Program

/-- Inlining keeps every jump at its offset. -/
theorem jumpsAt_inlineConstants (program : Program) (offset : Nat) :
    program.inlineConstants.jumpsAt offset =
      (program.jumpsAt offset).map
        (Prod.map (Callee.inline fun id => program.constants[id]?)
          (Option.map (Value.inline fun id => program.constants[id]?))) := by
  rw [jumpsAt, jumpsAt, routines_inlineConstants, List.flatMap_map, List.map_flatMap]
  congr 1
  funext routine
  simp only [Routine.inlined, Routine.dropDead, Routine.inline]
  rw [List.filterMap_filter, List.filterMap_map, List.map_filterMap]
  congr 1
  funext statement
  rw [← Statement.jumpAt?_inline, Function.comp_apply]
  split
  · rfl
  next dead => exact (Statement.jumpAt?_of_isDead (by simpa using dead)).symm

end Program

namespace Execution

theorem heading_map_inline (constant? : Nat → Option Word) (op : Opcode) (operands : List Value) :
    heading op (operands.map (Value.inline constant?)) =
      Prod.map (Callee.inline constant?) (Option.map (Value.inline constant?))
        (heading op operands) := by
  cases operands with
  | nil => simp [heading, condition?, Callee.inline, Prod.map]
  | cons first rest =>
      by_cases conditional : op.kind = .jumpIf <;>
        simp [heading, condition?, conditional, Callee.inline, Prod.map]

variable (state : Execution) {instruction : Instruction}

/-- A push assigns its constant to a fresh variable on top of the stack. -/
theorem step_push {word : Word} (standard : instruction.op.Standard)
    (push : instruction.op.kind = .push) (constants : instruction.constants = some [word]) :
    (state.step instruction).1 =
        some (.assign instruction.offset [.var state.nextVar] instruction.op [.const word]) ∧
      (state.step instruction).2.stack = state.stack.pushAll [.var state.nextVar] := by
  simp [step, emit, targets, Opcode.isJumpDest, push, constants, (standard.push push).2]

/-- Inlined operands are the constants of the pushes before. -/
theorem map_inline_popMany_run {count : Nat} {words : List Word} {instructions : List Instruction}
    (constant? : Nat → Option Word)
    (standard : ∀ instruction ∈ instructions, instruction.Standard)
    (known : ∀ statement ∈ (state.run instructions).1, ∀ id word,
      statement.definition? = some (id, word) → constant? id = some word)
    (pushed : Rule.pushedBefore? count instructions.reverse = some words) :
    ((state.run instructions).2.stack.popMany count).1.map (Value.inline constant?) =
      words.map Value.const := by
  induction count generalizing instructions words with
  | zero =>
      cases pushed
      rfl
  | succ count ih =>
      rcases instructions.eq_nil_or_concat with rfl | ⟨before, nearest, rfl⟩
      · cases pushed
      rw [List.concat_eq_append] at standard known pushed ⊢
      rw [List.reverse_concat] at pushed
      obtain ⟨word, others, constant, rest, rfl⟩ := Rule.pushedBefore?_succ_eq_some.mp pushed
      rw [List.forall_mem_append, List.forall_mem_singleton] at standard
      obtain ⟨push, constants⟩ := standard.2.of_pushed? constant
      obtain ⟨emits, grows⟩ := step_push (state.run before).2 standard.2.op push constants
      simp only [run_append, run_cons, run_nil, emits, Option.toList_some, List.append_nil,
        List.forall_mem_append, List.forall_mem_singleton] at known
      rw [run_append, run_cons, run_nil]
      have first := known.2 (state.run before).2.nextVar word
        (by simp [Statement.definition?, Opcode.isPush, push])
      have later := ih standard.1 known.1 rest
      simp [grows, SymbolicStack.popMany, SymbolicStack.pop, SymbolicStack.pushAll, Value.inline,
        first, later]

end Execution

namespace Rule

/-- The pushes at the end of one stream are those at the end of another. Both are given
nearest first. -/
def Follows (passed done : List Instruction) : Prop :=
  ∀ count words, pushedBefore? count passed = some words → pushedBefore? count done = some words

theorem Follows.fired {passed done : List Instruction} {next : Instruction}
    {replacement : Replacement} (follows : Follows passed done)
    (fired : Fired passed next replacement) : Fired done next replacement := by
  cases fired with
  | jump kind bare pushed => exact .jump kind bare (follows _ _ pushed)
  | jumpIf kind bare pushed => exact .jumpIf kind bare (follows _ _ pushed)
  | operands accepts pushed => exact .operands accepts (follows _ _ pushed)
  | computed computes carried computed => exact .computed computes carried computed

theorem isJump_of_fuseJump {before : List Instruction} {next : Instruction}
    {replacement : Replacement} (fires : fuseJump before next = some replacement) :
    replacement.instruction.op.isJump = true := by
  rw [fuseJump_eq] at fires
  split at fires
  · cases fires
  · split at fires
    next kind =>
      obtain ⟨words, _, rfl⟩ := Option.map_eq_some_iff.mp fires
      simp [Opcode.isJump, kind]
    next kind =>
      obtain ⟨words, _, rfl⟩ := Option.map_eq_some_iff.mp fires
      simp [Opcode.isJump, kind]
    · cases fires

/-- Fusing jumps leaves the pushes at the end alone. -/
theorem Follows.step {passed : Scanned} {done : List Instruction}
    (follows : Follows passed.instructions done) (next : Instruction) :
    Follows (fuseJump.step passed next).instructions (next :: done) := by
  intro count words pushed
  cases count with
  | zero => exact pushed
  | succ count =>
      cases fires : fuseJump passed.instructions next with
      | none =>
          rw [step_eq_of_none fires] at pushed
          rw [pushedBefore?_succ_eq_some] at pushed ⊢
          obtain ⟨word, others, constant, rest, equal⟩ := pushed
          exact ⟨word, others, constant, follows _ _ rest, equal⟩
      | some replacement =>
          -- The fused jump is no push.
          rw [step_eq_of_some fires] at pushed
          have push := kind_of_mem_take pushed replacement.instruction (by simp)
          simpa [Opcode.isJump, push] using isJump_of_fuseJump fires

theorem Follows.exists_of_mem_foldl {passed : Scanned} {done instructions : List Instruction}
    {instruction : Instruction} (follows : Follows passed.instructions done)
    (member : instruction ∈ (instructions.foldl fuseJump.step passed).instructions) :
    instruction ∈ passed.instructions ∨ instruction ∈ instructions ∨
      ∃ front next back replacement, instructions = front ++ next :: back ∧
        Fired (front.reverse ++ done) next replacement ∧
        replacement.instruction = instruction := by
  induction instructions generalizing passed done with
  | nil => exact .inl member
  | cons next rest ih =>
      rcases ih (follows.step next) member with
        before | later | ⟨front, other, back, replacement, rfl, fired, equal⟩
      · cases fires : fuseJump passed.instructions next with
        | none =>
            rw [step_eq_of_none fires, List.mem_cons] at before
            rcases before with rfl | older
            · exact .inr (.inl List.mem_cons_self)
            · exact .inl older
        | some replacement =>
            rw [step_eq_of_some fires, List.mem_cons] at before
            rcases before with equal | older
            · exact .inr (.inr ⟨[], next, rest, replacement, rfl,
                follows.fired (movesConstants_fuseJump.fired _ _ _ fires), equal.symm⟩)
            · exact .inl (List.mem_of_mem_drop older)
      · exact .inr (.inl (List.mem_cons_of_mem _ later))
      · refine .inr (.inr ⟨next :: front, other, back, replacement, rfl, ?_, equal⟩)
        simpa using fired

/-- An instruction of a stream with fused jumps is an old one, or has taken the constants
pushed before it in the old stream. -/
theorem exists_of_mem_scan_fuseJump {instructions : List Instruction} {instruction : Instruction}
    (member : instruction ∈ (fuseJump.scan instructions).instructions) :
    instruction ∈ instructions ∨
      ∃ front next back replacement, instructions = front ++ next :: back ∧
        Fired front.reverse next replacement ∧ replacement.instruction = instruction := by
  have start : Follows (⟨[], 0⟩ : Scanned).instructions [] := fun _ _ pushed => pushed
  rcases start.exists_of_mem_foldl (List.mem_reverse.mp member) with none | found
  · cases none
  · simpa using found

end Rule

namespace Block

/-- A jump after pushes goes by their constants, once these are inlined. -/
theorem jumpsAt_of_pushed {blocks : List Block} {block : Block} {front back : List Instruction}
    {jump : Instruction} {words : List Word}
    (standard : ∀ block ∈ blocks, ∀ instruction ∈ block.instructions, instruction.Standard)
    (ordered : (blocks.flatMap Block.instructions).Pairwise (·.offset < ·.offset))
    (listed : block ∈ blocks) (placed : block.instructions = front ++ jump :: back)
    (jumps : jump.op.isJump = true) (bare : jump.constants = none)
    (pushed : Rule.pushedBefore? jump.op.pops front.reverse = some words) :
    (Program.mk (routines {} blocks)).inlineConstants.jumpsAt jump.offset =
      [Execution.heading jump.op (words.map Value.const)] := by
  obtain ⟨own, member, equal⟩ := exists_jumpsAt_routines standard ordered listed placed jumps
  have standardBlock := standard block listed
  rw [placed, List.forall_mem_append] at standardBlock
  -- The pushes are statements of the routine.
  have known : ∀ statement ∈ (Execution.run { nextVar := own.nextVar } front).1, ∀ id word,
      statement.definition? = some (id, word) →
        (Program.mk (routines {} blocks)).constants[id]? = some word := by
    intro statement inside id word found
    refine (scoped_routines standard).apart.constants_eq_some_iff.mpr ⟨statement, ?_, found⟩
    refine List.mem_flatMap.mpr ⟨_, member, ?_⟩
    show statement ∈ (Execution.run { nextVar := own.nextVar } block.instructions).1
    rw [placed, Execution.run_append]
    exact List.mem_append_left _ inside
  have operands := Execution.map_inline_popMany_run _ _ standardBlock.1 known pushed
  rw [Program.jumpsAt_inlineConstants, equal, List.map_singleton, ← Execution.heading_map_inline,
    Execution.fetch, bare, operands]

end Block

/-- What becomes of a jump that is fused: its kind, the constants that it carries then, and
its target and condition before and after. -/
inductive FusedJump :
    Kind → List Word → List (Callee × Option Value) → List (Callee × Option Value) → Prop where
  | jump (target : Word) :
      FusedJump .jump [target] [(.computed (.const target), none)]
        [(.computed (.const target), none)]
  /-- Target and condition are exchanged. -/
  | jumpIf (target condition : Word) :
      FusedJump .jumpIf [condition, target]
        [(.computed (.const target), some (.const condition))]
        [(.computed (.const condition), some (.const target))]

/-- A fused jump stays the same if it is unconditional or its constants are equal. -/
theorem FusedJump.eq_iff {kind : Kind} {carried : List Word}
    {before after : List (Callee × Option Value)} (fused : FusedJump kind carried before after) :
    after = before ↔ kind = .jump ∨ ∃ word, carried = [word, word] := by
  cases fused with
  | jump target => simp
  | jumpIf target condition =>
      simp only [List.cons.injEq, Prod.mk.injEq, Callee.computed.injEq, Value.const.injEq,
        Option.some.injEq, and_true, reduceCtorEq, false_or]
      constructor
      · rintro ⟨rfl, _⟩
        exact ⟨_, rfl, rfl⟩
      · rintro ⟨word, rfl, rfl⟩
        exact ⟨rfl, rfl⟩

/-- A replaced jump goes by the constants that it has taken, where the old one goes by those
that it finds on the stack. -/
theorem Rule.Fired.fusedJump {before : List Instruction} {next : Instruction}
    {replacement : Replacement} (fired : Fired before next replacement) (standard : next.Standard)
    (jumps : replacement.instruction.op.isJump = true) :
    ∃ words carried, pushedBefore? next.op.pops before = some words ∧ next.constants = none ∧
      replacement.instruction = { next with constants := some carried } ∧
      FusedJump next.op.kind carried [Execution.heading next.op (words.map Value.const)]
        [Execution.heading next.op (carried.map Value.const)] := by
  cases fired with
  | @jump words kind bare pushed =>
      refine ⟨words, words, ?_, bare, rfl, ?_⟩
      · rwa [(standard.op.jump kind).1]
      · obtain ⟨target, rfl⟩ := List.length_eq_one_iff.mp (length_of_pushedBefore? pushed)
        simpa [Execution.heading, Execution.condition?, kind] using FusedJump.jump target
  | @jumpIf words kind bare pushed =>
      refine ⟨words, words.reverse, ?_, bare, rfl, ?_⟩
      · rwa [(standard.op.jumpIf kind).1]
      · obtain ⟨target, condition, rfl⟩ :=
          List.length_eq_two.mp (length_of_pushedBefore? pushed)
        simpa [Execution.heading, Execution.condition?, kind] using
          FusedJump.jumpIf target condition
  | operands accepts =>
      have notJump : next.op.isJump = false := by
        simp only [acceptsConstants, Bool.and_eq_true, Bool.not_eq_true'] at accepts
        exact accepts.1.1.2
      cases notJump.symm.trans jumps
  | computed => cases jumps

/-- Fusing a jump keeps its target. Fusing a conditional jump exchanges its target and its
condition with respect to what it takes from the stack, so only equal constants do no harm. -/
theorem fusedJump_of_mem_scan (code : Bytecode) :
    ∃ raw fused, Program.ofBlocks (Block.split code.decode) = .ok raw ∧
      Program.ofBlocks (Block.split (Rule.fuseJump.scan code.decode).instructions) = .ok fused ∧
      ∀ jump ∈ code.decode, jump.op.isJump = true → ∀ carried,
        { jump with constants := some carried } ∈ (Rule.fuseJump.scan code.decode).instructions →
          FusedJump jump.op.kind carried (raw.inlineConstants.jumpsAt jump.offset)
              (fused.jumpsAt jump.offset) ∧
            (fused.jumpsAt jump.offset = raw.inlineConstants.jumpsAt jump.offset ↔
              jump.op.kind = .jump ∨ ∃ word, carried = [word, word]) := by
  have moves := Rule.movesConstants_fuseJump
  have plain : ∀ instruction ∈ code.decode, instruction.Plain := Bytecode.plain_of_mem_decode
  have ordered := Bytecode.pairwise_offset_decode code
  have standard : ∀ instruction ∈ code.decode, instruction.Standard :=
    Bytecode.standard_of_mem_decode
  have standardRaw := Block.forall_mem_split standard
  have standardFused := Block.forall_mem_split (moves.standard_scan standard)
  refine ⟨_, _, Block.ofBlocks_eq standardRaw, Block.ofBlocks_eq standardFused, ?_⟩
  intro jump _ jumps carried member
  suffices fused : FusedJump jump.op.kind carried _ _ from ⟨fused, fused.eq_iff⟩
  -- The jump is in one block of the fused stream, which comes from a block of the code.
  have orderedFused := moves.pairwise_offset_scan ordered
  rw [← Block.flatMap_split code.decode] at ordered
  rw [← Block.flatMap_split (Rule.fuseJump.scan code.decode).instructions] at member orderedFused
  obtain ⟨fusedBlock, listedFused, placedFused⟩ := List.mem_flatMap.mp member
  have after :=
    Block.jumpsAt_of_carried standardFused orderedFused listedFused placedFused jumps rfl
  rw [moves.blockwise_scan.split_pass code.decode standard] at listedFused
  obtain ⟨block, listed, rfl⟩ := List.mem_map.mp listedFused
  rw [Block.Blockwise.instructions_onBlock] at placedFused
  rcases Rule.exists_of_mem_scan_fuseJump placedFused with
    old | ⟨front, next, back, replacement, placed, fired, equal⟩
  · have bare := (Block.forall_mem_split plain block listed _ old).bare
    have notPush : jump.op.kind ≠ .push := by
      rcases Opcode.isJump_iff.mp jumps with kind | kind <;> simp [kind]
    cases bare notPush
  · have standardNext : next.Standard := standardRaw block listed next (by simp [placed])
    obtain ⟨words, taken, pushed, bare, replaced, fused⟩ :=
      fired.fusedJump standardNext (by rwa [equal])
    rw [equal] at replaced
    simp only [Instruction.mk.injEq, Option.some.injEq] at replaced
    obtain ⟨offset, op, rfl⟩ := replaced
    rw [offset, op] at after ⊢
    rw [op] at jumps
    have before := Block.jumpsAt_of_pushed standardRaw ordered listed placed jumps bare pushed
    rw [before, after]
    exact fused

/-- A conditional jump over a jump destination, and a jump back to it. -/
theorem fusedJump_of_mem_scan_both :
    ∃ raw fused,
      Program.ofBlocks (Block.split
        (Bytecode.decode [0x60, 1, 0x60, 5, 0x57, 0x5b, 0x60, 5, 0x56])) = .ok raw ∧
      Program.ofBlocks (Block.split (Rule.fuseJump.scan
        (Bytecode.decode [0x60, 1, 0x60, 5, 0x57, 0x5b, 0x60, 5, 0x56])).instructions) =
          .ok fused ∧
      FusedJump .jumpIf [1, 5] (raw.inlineConstants.jumpsAt 4) (fused.jumpsAt 4) ∧
      FusedJump .jump [5] (raw.inlineConstants.jumpsAt 8) (fused.jumpsAt 8) := by
  obtain ⟨raw, fused, lifts, lifts', all⟩ :=
    fusedJump_of_mem_scan [0x60, 1, 0x60, 5, 0x57, 0x5b, 0x60, 5, 0x56]
  exact ⟨raw, fused, lifts, lifts',
    (all ⟨4, .ofByte 0x57, none⟩ (by decide +kernel) rfl [1, 5] (by decide +kernel)).1,
    (all ⟨8, .ofByte 0x56, none⟩ (by decide +kernel) rfl [5] (by decide +kernel)).1⟩

/-- Fusion does not keep where every jump goes: this one has a jump destination as its target
before, and as its condition afterwards. -/
theorem not_forall_fused_jump_eq :
    ¬∀ (code : Bytecode) (raw fused : Program),
      Program.ofBlocks (Block.split code.decode) = .ok raw →
      Program.ofBlocks (Block.split (Rule.fuseJump.scan code.decode).instructions) = .ok fused →
      ∀ jump ∈ code.decode, jump.op.isJump = true → ∀ carried,
        { jump with constants := some carried } ∈ (Rule.fuseJump.scan code.decode).instructions →
          fused.jumpsAt jump.offset = raw.inlineConstants.jumpsAt jump.offset := by
  intro agree
  have before : (Program.ofBlocks (Block.split
      (Bytecode.decode [0x60, 1, 0x60, 5, 0x57, 0x5b, 0x00]))).toOption.map
        (fun raw => raw.inlineConstants.jumpsAt 4) =
      some [(.computed (.const 5), some (.const 1))] := by
    decide +kernel
  have after : (Program.ofBlocks (Block.split (Rule.fuseJump.scan
      (Bytecode.decode [0x60, 1, 0x60, 5, 0x57, 0x5b, 0x00])).instructions)).toOption.map
        (fun fused => fused.jumpsAt 4) =
      some [(.computed (.const 1), some (.const 5))] := by
    decide +kernel
  cases lifts : Program.ofBlocks (Block.split
      (Bytecode.decode [0x60, 1, 0x60, 5, 0x57, 0x5b, 0x00])) with
  | error => simp [lifts, Except.toOption] at before
  | ok raw =>
      cases lifts' : Program.ofBlocks (Block.split (Rule.fuseJump.scan
          (Bytecode.decode [0x60, 1, 0x60, 5, 0x57, 0x5b, 0x00])).instructions) with
      | error => simp [lifts', Except.toOption] at after
      | ok fused =>
          have same := agree _ raw fused lifts lifts' ⟨4, .ofByte 0x57, none⟩ (by decide +kernel)
            rfl [1, 5] (by decide +kernel)
          simp only [lifts, lifts', Except.toOption, Option.map_some, Option.some.injEq]
            at before after
          rw [before, after] at same
          exact absurd same (by decide)

end EvmLift
