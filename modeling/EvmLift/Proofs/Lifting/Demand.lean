import EvmLift.Proofs.Simplification.Form
import Mathlib.Order.Bounds.Basic

/-!
# How deep a stack a block needs

An instruction that takes its operands from the stack demands that many slots, less those that
the instructions before it have left. Lifting counts a parameter whenever an operand is missing,
one at a time and wherever it is missing. The number that comes out is the largest demand of the
block: with fewer words the block does not run, and with that many it does.
-/

namespace EvmLift

namespace Instruction

/-- An instruction that finds its operands on the stack. -/
structure Takes (instruction : Instruction) : Prop where
  notDest : instruction.op.kind ≠ .jumpDest
  bare : instruction.constants = none

/-- The change of the stack depth. Constants that an instruction carries were never on the stack,
and a jump destination does nothing. -/
def delta (instruction : Instruction) : Int :=
  if instruction.op.isJumpDest then 0
  else
    match instruction.constants with
    | some _ => instruction.op.pushes
    | none => instruction.op.effect

/-- The change of the stack depth along instructions. -/
def net (instructions : List Instruction) : Int :=
  (instructions.map delta).sum

/-- The slots that the instructions take, each less the change of the depth before it. -/
def demands (instructions : List Instruction) : Set Int :=
  {demand | ∃ before instruction after, instructions = before ++ instruction :: after ∧
    instruction.Takes ∧ demand = instruction.op.pops - net before}

@[simp] theorem net_nil : net [] = 0 := rfl

@[simp] theorem net_cons (instruction : Instruction) (rest : List Instruction) :
    net (instruction :: rest) = instruction.delta + net rest := by
  simp [net]

theorem not_mem_demands_nil (demand : Int) : demand ∉ demands [] := by
  rintro ⟨before, instruction, after, equal, _⟩
  simp at equal

/-- The first instruction demands its own slots, and leaves some to the others. -/
theorem mem_demands_cons {instruction : Instruction} {rest : List Instruction} {demand : Int} :
    demand ∈ demands (instruction :: rest) ↔
      (instruction.Takes ∧ demand = instruction.op.pops) ∨
        demand + instruction.delta ∈ demands rest := by
  constructor
  · rintro ⟨before, taker, after, equal, takes, rfl⟩
    cases before with
    | nil =>
        cases equal
        exact .inl ⟨takes, by simp⟩
    | cons first before =>
        cases equal
        refine .inr ⟨before, taker, after, rfl, takes, ?_⟩
        rw [net_cons]
        omega
  · rintro (⟨takes, rfl⟩ | ⟨before, taker, after, rfl, takes, equal⟩)
    · exact ⟨[], instruction, rest, rfl, takes, by simp⟩
    · refine ⟨instruction :: before, taker, after, rfl, takes, ?_⟩
      rw [net_cons]
      omega

theorem delta_of_dest {instruction : Instruction} (dest : instruction.op.kind = .jumpDest) :
    instruction.delta = 0 := by
  simp [delta, Opcode.isJumpDest, dest]

theorem Takes.delta {instruction : Instruction} (takes : instruction.Takes) :
    instruction.delta = instruction.op.effect := by
  simp [Instruction.delta, Opcode.isJumpDest, takes.notDest, takes.bare]

theorem delta_of_carried {instruction : Instruction} {words : List Word}
    (notDest : instruction.op.kind ≠ .jumpDest) (carried : instruction.constants = some words) :
    instruction.delta = instruction.op.pushes := by
  simp [delta, Opcode.isJumpDest, notDest, carried]

end Instruction

namespace Execution

variable {state : Execution} {instruction : Instruction}

theorem depth_fetch (notDest : instruction.op.kind ≠ .jumpDest) :
    (state.fetch instruction).2.depth + instruction.op.pushes =
      state.depth + instruction.delta := by
  cases constants : instruction.constants with
  | some words => simp [fetch, constants, Instruction.delta_of_carried notDest constants]
  | none =>
      rw [Instruction.Takes.delta ⟨notDest, constants⟩, Opcode.effect]
      simp only [fetch, constants]
      omega

/-- A step changes the depth as its instruction declares. -/
theorem depth_step (standard : instruction.op.Standard) :
    (state.step instruction).2.depth = state.depth + instruction.delta := by
  have effect := effect_step state standard
  generalize (state.step instruction).1 = statement at effect
  generalize (state.step instruction).2 = next at effect ⊢
  cases effect with
  | skip dest => simp [Instruction.delta_of_dest dest]
  | shuffle shuffles bare =>
      rw [Instruction.Takes.delta ⟨Opcode.kind_ne_of_isShuffle shuffles, bare⟩]
      rfl
  | jump jumps => exact depth_fetch (Opcode.kind_ne_of_isJump jumps)
  | assign notDest notJump notShuffle => exact depth_fetch notDest

theorem depth_run {instructions : List Instruction}
    (standard : ∀ instruction ∈ instructions, instruction.Standard) :
    (state.run instructions).2.depth = state.depth + Instruction.net instructions := by
  induction instructions generalizing state with
  | nil => simp
  | cons instruction rest ih =>
      rw [List.forall_mem_cons] at standard
      rw [run_cons, ih standard.2, depth_step standard.1.op, Instruction.net_cons, Int.add_assoc]

/-- Operands that are missing on a balanced stack are counted, and no others. -/
theorem Balanced.params_popMany (balanced : state.Balanced) (count : Nat) :
    ((state.stack.popMany count).2.params : Int) =
      max (state.stack.params : Int) (count - state.depth) := by
  rw [SymbolicStack.params_popMany]
  rw [Balanced] at balanced
  omega

/-- A step counts the operands that it takes and that are missing. -/
theorem Balanced.params_step_of_takes (balanced : state.Balanced)
    (standard : instruction.op.Standard) (takes : instruction.Takes) :
    ((state.step instruction).2.stack.params : Int) =
      max (state.stack.params : Int) (instruction.op.pops - state.depth) := by
  have effect := effect_step state standard
  generalize (state.step instruction).1 = statement at effect
  generalize (state.step instruction).2 = next at effect ⊢
  have counted := balanced.params_popMany instruction.op.pops
  cases effect with
  | skip dest => exact absurd dest takes.notDest
  | shuffle shuffles bare => exact counted
  | jump jumps => simpa only [fetch, takes.bare] using counted
  | assign notDest notJump notShuffle =>
      simpa only [fetch, takes.bare, SymbolicStack.pushAll] using counted

/-- A step that takes nothing from the stack counts no parameters. -/
theorem params_step_of_not_takes (standard : instruction.op.Standard)
    (takesNot : ¬ instruction.Takes) :
    (state.step instruction).2.stack.params = state.stack.params := by
  have effect := effect_step state standard
  generalize (state.step instruction).1 = statement at effect
  generalize (state.step instruction).2 = next at effect ⊢
  have carries : ∀ notDest : instruction.op.kind ≠ .jumpDest,
      (state.fetch instruction).2.stack.params = state.stack.params := by
    intro notDest
    cases constants : instruction.constants with
    | some words => simp [fetch, constants]
    | none => exact absurd ⟨notDest, constants⟩ takesNot
  cases effect with
  | skip dest => rfl
  | shuffle shuffles bare =>
      exact absurd ⟨Opcode.kind_ne_of_isShuffle shuffles, bare⟩ takesNot
  | jump jumps => exact carries (Opcode.kind_ne_of_isJump jumps)
  | assign notDest notJump notShuffle => exact carries notDest

/-- No demand exceeds the depth and the parameters that are counted. -/
theorem Balanced.demand_le_run {instructions : List Instruction} (balanced : state.Balanced)
    (standard : ∀ instruction ∈ instructions, instruction.Standard) :
    ∀ demand ∈ Instruction.demands instructions,
      demand - state.depth ≤ (state.run instructions).2.stack.params := by
  induction instructions generalizing state with
  | nil =>
      intro demand member
      exact absurd member (Instruction.not_mem_demands_nil demand)
  | cons instruction rest ih =>
      rw [List.forall_mem_cons] at standard
      intro demand member
      rw [run_cons]
      dsimp only
      rcases Instruction.mem_demands_cons.mp member with ⟨takes, rfl⟩ | later
      · have counted := balanced.params_step_of_takes standard.1.op takes
        have kept := params_le_run (state.step instruction).2 standard.2
        omega
      · have bound := ih (balanced.step standard.1) standard.2 _ later
        rw [depth_step standard.1.op] at bound
        omega

/-- Parameters are counted only where they are demanded. -/
theorem Balanced.exists_demand_run {instructions : List Instruction} (balanced : state.Balanced)
    (standard : ∀ instruction ∈ instructions, instruction.Standard) :
    (state.run instructions).2.stack.params = state.stack.params ∨
      (state.run instructions).2.stack.params + state.depth ∈
        Instruction.demands instructions := by
  induction instructions generalizing state with
  | nil => exact .inl rfl
  | cons instruction rest ih =>
      rw [List.forall_mem_cons] at standard
      rw [run_cons, Instruction.mem_demands_cons]
      dsimp only
      rcases ih (balanced.step standard.1) standard.2 with kept | later
      · by_cases takes : instruction.Takes
        · have counted := balanced.params_step_of_takes standard.1.op takes
          by_cases missing : (state.stack.params : Int) < instruction.op.pops - state.depth
          · right
            left
            refine ⟨takes, ?_⟩
            omega
          · left
            omega
        · left
          rw [kept, params_step_of_not_takes standard.1.op takes]
      · right
        right
        rwa [depth_step standard.1.op, ← Int.add_assoc] at later

end Execution

namespace BlockState

variable {oracle : Oracle} {state : BlockState} {instruction : Instruction}

/-- What is below the operands of an instruction, on a stack that has them. -/
theorem length_fetch_onto (notDest : instruction.op.kind ≠ .jumpDest) {base : List Word}
    (enough : instruction.Takes → instruction.op.pops ≤ base.length) :
    (Live.fetch (argumentsOf base) {} instruction).2.params ≤ base.length ∧
      (((Live.fetch (argumentsOf base) {} instruction).2.onto base).length : Int) +
        instruction.op.pushes = base.length + instruction.delta := by
  cases constants : instruction.constants with
  | some words =>
      rw [Instruction.delta_of_carried notDest constants]
      simp [Live.fetch, constants, Live.onto]
  | none =>
      have takes : instruction.Takes := ⟨notDest, constants⟩
      have deep := enough takes
      rw [takes.delta, Opcode.effect]
      simp only [Live.fetch, constants, Live.drop, Live.onto, List.length_append,
        List.length_drop, List.length_nil]
      omega

/-- An instruction that finds its operands runs and changes the depth as it declares. -/
theorem exists_step (oracle : Oracle) (regular : instruction.Regular)
    (enough : instruction.Takes → instruction.op.pops ≤ state.stack.length) :
    ∃ next, state.step oracle instruction = some next ∧
      (next.stack.length : Int) = state.stack.length + instruction.delta := by
  have standard := regular.standard
  -- The stack as it is before anything on it is live.
  have stack : state.stack = Live.onto {} state.stack := by simp [Live.onto]
  by_cases dest : instruction.op.kind = .jumpDest
  · exact ⟨state, by simp [step, dest], by simp [Instruction.delta_of_dest dest]⟩
  have fetched := length_fetch_onto dest enough
  by_cases shuffles : instruction.op.isShuffle = true
  · have bare := regular.bare shuffles
    simp only [Live.fetch, bare] at fetched
    refine ⟨_, step_shuffle oracle standard.op shuffles stack fetched.1, ?_⟩
    have size := Instruction.length_rearrange_add_slack shuffles bare
      (Live.length_top {} (argumentsOf state.stack) instruction.op.pops)
    rw [standard.slack] at size
    rw [Live.onto_shuffle, List.length_append]
    omega
  by_cases jumps : instruction.op.isJump = true
  · have notPush : instruction.op.kind ≠ .push := by
      rcases Opcode.isJump_iff.mp jumps with kind | kind <;> simp [kind]
    have taken := operands?_onto regular notPush fetched.1
    rw [← stack] at taken
    refine ⟨_, step_jump oracle standard.op jumps taken (length_fetch regular notPush _), ?_⟩
    simpa [standard.op.pushes_of_isJump jumps] using fetched.2
  · refine ⟨_, step_perform oracle regular dest (by simpa using jumps) (by simpa using shuffles)
      stack fetched.1, ?_⟩
    have left : ∀ answer, (Event.results ⟨instruction.offset, instruction.op,
        (Live.fetch (argumentsOf state.stack) {} instruction).1⟩ answer).length =
          instruction.op.pushes := by
      intro answer
      exact Event.length_results answer (Live.length_fetch_of_push standard _ _)
    rw [List.length_append, List.length_reverse, left]
    omega

/-- An instruction that misses an operand does not run. -/
theorem step_eq_none (oracle : Oracle) (regular : instruction.Regular) (takes : instruction.Takes)
    (few : state.stack.length < instruction.op.pops) : state.step oracle instruction = none := by
  have missing : operands? instruction state.stack = none := by
    simp [operands?, takes.bare]
    omega
  cases kind : instruction.op.kind
  case jumpDest => exact absurd kind takes.notDest
  case push =>
    rcases regular.pushed kind with ⟨word, carried⟩
    rw [takes.bare] at carried
    cases carried
  case dup | swap =>
    have beyond : state.stack.length ≤ instruction.op.pops - 1 := by omega
    simp [step, kind, List.getElem?_eq_none beyond]
  all_goals simp [step, kind, missing]

/-- A block runs exactly on stacks that meet its demands. -/
theorem isSome_run_iff (oracle : Oracle) {instructions : List Instruction}
    (regular : ∀ instruction ∈ instructions, instruction.Regular) :
    (state.run oracle instructions).isSome = true ↔
      ∀ demand ∈ Instruction.demands instructions, demand ≤ state.stack.length := by
  induction instructions generalizing state with
  | nil =>
      apply iff_of_true rfl
      intro demand member
      exact absurd member (Instruction.not_mem_demands_nil demand)
  | cons instruction rest ih =>
      rw [List.forall_mem_cons] at regular
      by_cases enough : instruction.Takes → instruction.op.pops ≤ state.stack.length
      · rcases exists_step oracle regular.1 enough with ⟨next, steps, length⟩
        simp only [run, steps, Option.bind_eq_bind, Option.bind_some, ih regular.2, length]
        constructor
        · intro met demand member
          rcases Instruction.mem_demands_cons.mp member with ⟨takes, rfl⟩ | later
          · exact Int.ofNat_le.mpr (enough takes)
          · have bound := met _ later
            omega
        · intro met demand member
          have bound := met (demand - instruction.delta)
            (Instruction.mem_demands_cons.mpr (.inr (by simpa using member)))
          omega
      · rw [Classical.not_imp, Nat.not_le] at enough
        simp only [run, step_eq_none oracle regular.1 enough.1 enough.2, Option.bind_eq_bind,
          Option.bind_none, Option.isSome_none, Bool.false_eq_true, false_iff]
        intro met
        have bound := met _ (Instruction.mem_demands_cons.mpr (.inl ⟨enough.1, rfl⟩))
        omega

end BlockState

namespace Block

/-- Lifting infers the largest demand of a block as the number of parameters. -/
theorem isGreatest_arity (supply : Supply) {block : Block}
    (standard : ∀ instruction ∈ block.instructions, instruction.Standard) :
    IsGreatest (insert 0 (Instruction.demands block.instructions))
      ((block.routine supply).arity : Int) := by
  have start : Execution.Balanced { nextVar := supply.nextVar } := rfl
  constructor
  · rcases start.exists_demand_run standard with unread | demanded
    · left
      exact congrArg Nat.cast unread
    · right
      rwa [Int.add_zero] at demanded
  · intro demand member
    rcases member with rfl | member
    · exact Int.natCast_nonneg _
    · have bound := start.demand_le_run standard demand member
      rwa [Int.sub_zero] at bound

/-- The number of parameters that lifting infers for a block of code is the largest demand, and
the depth below which the block does not run. What the block changes in depth is what it returns
beyond its parameters. -/
theorem exact_arity_of_mem_split (options : Options) (code : Bytecode) (supply : Supply)
    {block : Block} (listed : block ∈ Block.split (options.instructions code)) :
    ∃ routine rest, block.lift supply = (.ok routine, rest) ∧
      IsGreatest (insert 0 (Instruction.demands block.instructions)) (routine.arity : Int) ∧
      (∀ oracle (stack : List Word),
        (BlockState.run oracle ⟨stack, []⟩ block.instructions).isSome = true ↔
          routine.arity ≤ stack.length) ∧
      (routine.returns.length : Int) = Instruction.net block.instructions + routine.arity := by
  have regular := forall_mem_split (options.regular_instructions code) block listed
  have standard : ∀ instruction ∈ block.instructions, instruction.Standard :=
    fun instruction member => (regular instruction member).standard
  have greatest := isGreatest_arity supply standard
  refine ⟨_, _, lift_eq supply standard, greatest, ?_, ?_⟩
  · intro oracle stack
    rw [BlockState.isSome_run_iff oracle regular]
    constructor
    · intro met
      rcases greatest.1 with none | some
      · omega
      · exact Int.ofNat_le.mp (met _ some)
    · intro deep demand member
      exact Int.le_trans (greatest.2 (.inr member)) (Int.ofNat_le.mpr deep)
  · have start : Execution.Balanced { nextVar := supply.nextVar } := rfl
    have balanced := start.run standard
    rw [Execution.Balanced, Execution.depth_run standard, Int.zero_add] at balanced
    exact balanced.symm

/-- A copy and an exchange that reaches below it need two words, of which one is dropped. -/
theorem exact_arity_of_mem_split_shuffles :
    ∃ routine rest,
      (Block.mk 0 (Bytecode.decode [0x80, 0x91, 0x50])).lift {} = (.ok routine, rest) ∧
      routine.arity = 2 ∧ routine.returns.length = 2 ∧
      IsGreatest (insert 0 (Instruction.demands (Bytecode.decode [0x80, 0x91, 0x50]))) 2 ∧
      (BlockState.run (fun _ _ _ => 0) ⟨[7], []⟩ (Bytecode.decode [0x80, 0x91, 0x50])).isSome
        = false := by
  have listed : Block.mk 0 (Bytecode.decode [0x80, 0x91, 0x50]) ∈
      Block.split (Options.instructions {} [0x80, 0x91, 0x50, 0x5b, 0x34, 0x56]) := by
    decide +kernel
  rcases exact_arity_of_mem_split {} _ {} listed with
    ⟨routine, rest, lifts, greatest, runs, balanced⟩
  have inferred : ((Block.mk 0 (Bytecode.decode [0x80, 0x91, 0x50])).lift {}).1.map Routine.arity =
      .ok 2 := by decide +kernel
  rw [lifts] at inferred
  have arity : routine.arity = 2 := Except.ok.inj inferred
  have change : Instruction.net (Bytecode.decode [0x80, 0x91, 0x50]) = 0 := by decide +kernel
  have short := runs (fun _ _ _ => 0) [7]
  rw [arity] at greatest balanced short
  rw [change] at balanced
  refine ⟨routine, rest, lifts, arity, Int.ofNat.inj balanced, greatest, ?_⟩
  rw [Bool.eq_false_iff]
  intro some
  exact absurd (short.mp some) (by decide)

end Block

end EvmLift
