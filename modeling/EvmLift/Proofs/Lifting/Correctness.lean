import EvmLift.Proofs.Encoding
import EvmLift.Proofs.Lifting.Meaning
import EvmLift.Proofs.Machine.Basic
import EvmLift.Proofs.Semantics.Stack

/-!
# Lifted routines on a whole stack

A block runs straight through its instructions, on a whole stack and whatever its jumps say.
Every operation is shown, pushes included, and a jump shows all of the stack that is left
below its operands. The routine of the block shows the same on the slots of that stack as its
arguments, except that its jumps pass on no argument that was not yet read. What the block
leaves is what the routine returns, on top of the slots that it never reached.
-/

namespace EvmLift

namespace Instruction

/-- An instruction of the table with the constants that it may carry: a push has its own, a
shuffle has none, and anything else has all of its operands or none. -/
structure Regular (instruction : Instruction) : Prop where
  listed : instruction.op ∈ Opcode.all
  pushed : instruction.op.kind = .push → ∃ word, instruction.constants = some [word]
  bare : instruction.op.isShuffle = true → instruction.constants = none
  sized : instruction.op.kind ≠ .push → ∀ words, instruction.constants = some words →
    words.length = instruction.op.pops

theorem Regular.standard {instruction : Instruction} (regular : instruction.Regular) :
    instruction.Standard where
  op := Opcode.standard_of_mem_all regular.listed
  pushed := regular.pushed

end Instruction

/-- Decoding gives constants to pushes only. -/
theorem Bytecode.regular_of_mem_decode {code : Bytecode} :
    ∀ instruction ∈ code.decode, instruction.Regular := by
  intro instruction member
  have plain := plain_of_mem_decode instruction member
  refine ⟨listed_of_mem_decodeFrom 0 code instruction member, plain.pushed, ?_, ?_⟩
  · intro shuffles
    apply plain.bare
    rcases Opcode.isShuffle_iff.mp shuffles with kind | kind <;> simp [kind]
  · intro notPush words carried
    rw [plain.bare notPush] at carried
    cases carried

/-- A whole stack in the course of a block, with everything that was shown so far. -/
@[ext] structure BlockState where
  stack : List Word
  shown : List Observation := []
  deriving Repr, DecidableEq

namespace BlockState

/-- The events so far. -/
def events (state : BlockState) : List Event :=
  state.shown.filterMap Observation.event?

/-- The operands of an instruction, and the stack below them. Those that the instruction does
not carry itself are taken from the stack. -/
def operands? (instruction : Instruction) (stack : List Word) :
    Option (List Word × List Word) :=
  match instruction.constants with
  | some words => if words.length = instruction.op.pops then some (words, stack) else none
  | none =>
      if instruction.op.pops ≤ stack.length then
        some (stack.take instruction.op.pops, stack.drop instruction.op.pops)
      else none

/-- Execute one instruction. One that finds too few words has no execution. -/
def step (oracle : Oracle) (state : BlockState) (instruction : Instruction) :
    Option BlockState :=
  let op := instruction.op
  match op.kind with
  | .jumpDest => some state
  | .push =>
      match instruction.constants with
      | some [word] =>
          some ⟨word :: state.stack,
            state.shown ++ [.performed ⟨instruction.offset, op, [word]⟩]⟩
      | _ => none
  | .dup => do
      let copied ← state.stack[op.pops - 1]?
      return { state with stack := copied :: state.stack }
  | .swap => do
      let top ← state.stack[0]?
      let deep ← state.stack[op.pops - 1]?
      return { state with stack := (state.stack.set 0 deep).set (op.pops - 1) top }
  | .jump => do
      let (operands, below) ← operands? instruction state.stack
      let target ← operands[0]?
      return ⟨below, state.shown ++ [.jumped (some instruction.offset) (.offset target) none below]⟩
  | .jumpIf => do
      let (operands, below) ← operands? instruction state.stack
      let target ← operands[0]?
      let condition ← operands[1]?
      return ⟨below, state.shown ++
        [.jumped (some instruction.offset) (.offset target) (some condition) below]⟩
  | .plain | .fault => do
      let (operands, below) ← operands? instruction state.stack
      let event : Event := ⟨instruction.offset, op, operands⟩
      return ⟨(event.results (oracle state.events event)).reverse ++ below,
        state.shown ++ [.performed event]⟩

/-- Execute instructions in order. -/
def run (oracle : Oracle) (state : BlockState) : List Instruction → Option BlockState
  | [] => some state
  | instruction :: rest => do
      let next ← state.step oracle instruction
      next.run oracle rest

theorem run_append (oracle : Oracle) (state : BlockState) (first second : List Instruction) :
    state.run oracle (first ++ second) =
      (state.run oracle first).bind fun next => next.run oracle second := by
  induction first generalizing state with
  | nil => rfl
  | cons instruction rest ih => simp [run, ih, Option.bind_assoc]

section

variable {base : List Word} {live : Live} {instruction : Instruction} {state : BlockState}

theorem length_fetch (regular : instruction.Regular) (notPush : instruction.op.kind ≠ .push)
    (args : Nat → Word) : (live.fetch args instruction).1.length = instruction.op.pops := by
  unfold Live.fetch
  cases constants : instruction.constants with
  | some words => exact regular.sized notPush words constants
  | none => exact live.length_top args _

/-- Operands are found on the stack where they are found among live words and arguments. -/
theorem operands?_onto (regular : instruction.Regular) (notPush : instruction.op.kind ≠ .push)
    (enough : (live.fetch (argumentsOf base) instruction).2.params ≤ base.length) :
    operands? instruction (live.onto base) =
      some ((live.fetch (argumentsOf base) instruction).1,
        (live.fetch (argumentsOf base) instruction).2.onto base) := by
  unfold operands?
  unfold Live.fetch at enough ⊢
  cases constants : instruction.constants with
  | some words => exact if_pos (regular.sized notPush words constants)
  | none =>
      simp only [constants] at enough
      have deep : instruction.op.pops ≤ (live.onto base).length := by
        rw [Live.onto_eq enough, List.length_append, Live.length_top]
        omega
      simp only [deep, if_true, Live.take_onto enough, Live.drop_onto]

/-- A shuffle moves slots of the stack as it moves live words and arguments. -/
theorem step_shuffle (oracle : Oracle) (standard : instruction.op.Standard)
    (shuffles : instruction.op.isShuffle = true) (stack : state.stack = live.onto base)
    (enough : (live.drop instruction.op.pops).params ≤ base.length) :
    state.step oracle instruction =
      some { state with
        stack := (live.shuffle (argumentsOf base) instruction.op).onto base } := by
  have size := live.length_top (argumentsOf base) instruction.op.pops
  rw [Live.onto_eq enough] at stack
  rw [Live.onto_shuffle]
  rcases Opcode.isShuffle_iff.mp shuffles with kind | kind
  · rcases standard.rearrange_dup kind size with ⟨copied, found, moves⟩
    rw [← stack] at found
    rw [moves, ← stack]
    simp [step, kind, found]
  · rcases standard.rearrange_swap kind size with ⟨top, deep, first, second, moves⟩
    rw [← stack] at first second
    rw [moves, ← stack]
    simp [step, kind, first, second]

/-- A jump shows the operands that decide it, and the stack below them. -/
theorem step_jump (oracle : Oracle) (standard : instruction.op.Standard)
    (jumps : instruction.op.isJump = true) {words below : List Word}
    (taken : operands? instruction state.stack = some (words, below))
    (size : words.length = instruction.op.pops) :
    state.step oracle instruction =
      some ⟨below, state.shown ++ [.jumped (some instruction.offset)
        ((words.head?.map Destination.offset).getD .fault)
        (if instruction.op.kind = .jumpIf then words[1]? else none) below]⟩ := by
  rcases Opcode.isJump_iff.mp jumps with kind | kind
  · rw [(standard.jump kind).1] at size
    rcases List.length_eq_one_iff.mp size with ⟨target, rfl⟩
    simp [step, kind, taken]
  · rw [(standard.jumpIf kind).1] at size
    rcases List.length_eq_two.mp size with ⟨target, condition, rfl⟩
    simp [step, kind, taken]

/-- Whatever is neither moved nor jumped is performed on its operands. -/
theorem step_perform (oracle : Oracle) (regular : instruction.Regular)
    (notDest : instruction.op.kind ≠ .jumpDest) (notJump : instruction.op.isJump = false)
    (notShuffle : instruction.op.isShuffle = false) (stack : state.stack = live.onto base)
    (enough : (live.fetch (argumentsOf base) instruction).2.params ≤ base.length) :
    let event : Event :=
      ⟨instruction.offset, instruction.op, (live.fetch (argumentsOf base) instruction).1⟩
    state.step oracle instruction =
      some ⟨(event.results (oracle state.events event)).reverse ++
        (live.fetch (argumentsOf base) instruction).2.onto base,
        state.shown ++ [.performed event]⟩ := by
  by_cases push : instruction.op.kind = .push
  · rcases regular.pushed push with ⟨word, carried⟩
    simp [step, push, carried, Live.fetch, Event.results, Opcode.isPush, stack]
  · have taken := operands?_onto regular push enough
    rw [← stack] at taken
    have other : instruction.op.kind = .plain ∨ instruction.op.kind = .fault := by
      cases kind : instruction.op.kind <;>
        simp_all [Opcode.isJump, Opcode.isShuffle]
    rcases other with kind | kind <;> simp [step, kind, taken]

end

end BlockState

namespace Observation

/-- What a routine shows as a block shows it: below the words that a jump passes on lies what
is left of the stack. -/
def onto (base : List Word) (reached : Nat) : Observation → Observation
  | .performed event => .performed event
  | .jumped offset destination condition args =>
      .jumped offset destination condition (args ++ base.drop reached)

@[simp] theorem event?_onto (base : List Word) (reached : Nat) (observation : Observation) :
    (observation.onto base reached).event? = observation.event? := by
  cases observation <;> rfl

end Observation

/-- The events so far. -/
def Run.events (run : Run) : List Event :=
  run.seen.filterMap Observation.event?

/-- The reading that shows every opcode, pushes included. -/
def Oracle.showing (oracle : Oracle) : Reading where
  observes _ := true
  answer seen := oracle (seen.filterMap Observation.event?)

namespace Execution

/-- The number of parameters that were read up to each statement of instructions. -/
def reached (state : Execution) : List Instruction → List Nat
  | [] => []
  | instruction :: rest =>
      let (statement, next) := state.step instruction
      statement.toList.map (fun _ => next.stack.params) ++ next.reached rest

theorem length_reached (state : Execution) (instructions : List Instruction) :
    (state.reached instructions).length = (state.run instructions).1.length := by
  induction instructions generalizing state with
  | nil => rfl
  | cons instruction rest ih => simp [reached, run_cons, ih]

/-- No more parameters are read up to a statement than up to the end. -/
theorem le_of_mem_reached (state : Execution) {instructions : List Instruction}
    (standard : ∀ instruction ∈ instructions, instruction.Standard) :
    ∀ count ∈ state.reached instructions, count ≤ (state.run instructions).2.stack.params := by
  induction instructions generalizing state with
  | nil => simp [reached]
  | cons instruction rest ih =>
      rw [List.forall_mem_cons] at standard
      intro count member
      rcases List.mem_append.mp member with own | later
      · rcases List.mem_map.mp own with ⟨_, _, rfl⟩
        exact params_le_run _ standard.2
      · exact ih _ standard.2 count later

end Execution

/-- Statements run in accord with instructions: the slots of a stack are their arguments, their
live values lie on what is left of it, and they performed the same events. -/
structure Accords (base : List Word) (symbolic : Execution) (run : Run) (state : BlockState) :
    Prop where
  params : run.frame.params = fun index => base[index]?
  stack : ∃ live, Represents run.frame symbolic live ∧ state.stack = live.onto base
  events : state.events = run.events

/-- Instructions and statements that accord lead to such an accord again, and show the same. -/
def Advances (oracle : Oracle) (base : List Word) (run : Run) (state : BlockState)
    (instructions : List Instruction) (statements : List Statement) (reached : List Nat)
    (next : Execution) : Prop :=
  ∃ after final new, Statement.performAll oracle.showing run statements = some after ∧
    state.run oracle instructions = some final ∧
    new.length = reached.length ∧ after.seen = run.seen ++ new ∧
    final.shown = state.shown ++ List.zipWith (Observation.onto base) reached new ∧
    Accords base next after final

namespace Advances

variable {oracle : Oracle} {base : List Word} {before : Run} {state : BlockState}

/-- Whatever comes next may start from any accord. -/
theorem trans {instructions rest : List Instruction} {statements others : List Statement}
    {reached further : List Nat} {next final : Execution}
    (first : Advances oracle base before state instructions statements reached next)
    (second : ∀ after middle, Accords base next after middle →
      Advances oracle base after middle rest others further final) :
    Advances oracle base before state (instructions ++ rest) (statements ++ others)
      (reached ++ further) final := by
  rcases first with ⟨after, middle, new, performs, steps, size, seen, shown, accords⟩
  rcases second after middle accords with
    ⟨after', final', new', performs', steps', size', seen', shown', accords'⟩
  refine ⟨after', final', new ++ new', ?_, ?_, ?_, ?_, ?_, accords'⟩
  · rw [Statement.performAll_append, performs]
    exact performs'
  · rw [BlockState.run_append, steps]
    exact steps'
  · rw [List.length_append, List.length_append, size, size']
  · rw [seen', seen, List.append_assoc]
  · rw [shown', shown, List.append_assoc, List.zipWith_append size.symm]

end Advances

namespace Accords

variable {oracle : Oracle} {base : List Word} {symbolic : Execution} {before : Run}
variable {state : BlockState} {instruction : Instruction}

theorem supplied (accords : Accords base symbolic before state) {count : Nat}
    (enough : count ≤ base.length) :
    ∀ index < count, before.frame.params index = some (argumentsOf base index) := by
  intro index inside
  rw [accords.params]
  exact getElem?_eq_argumentsOf (Nat.lt_of_lt_of_le inside enough)

/-- Nothing is shown where only slots move. -/
theorem silent {next : Execution} {live : Live} (accords : Accords base symbolic before state)
    (represents : Represents before.frame next live)
    (steps : state.step oracle instruction = some { state with stack := live.onto base }) :
    Advances oracle base before state [instruction] [] [] next := by
  refine ⟨before, { state with stack := live.onto base }, [], rfl, ?_, rfl, by simp, by simp, ?_⟩
  · simp [BlockState.run, steps]
  · exact ⟨accords.params, ⟨live, represents, rfl⟩, accords.events⟩

/-- What a statement and its instruction show is one and the same, up to the rest of the
stack. -/
theorem shows {next : Execution} {live : Live} {frame : Frame} {statement : Statement}
    {reached : Nat} (accords : Accords base symbolic before state) (observation : Observation)
    (performs : statement.perform oracle.showing before =
      some ⟨frame, before.seen ++ [observation]⟩)
    (steps : state.step oracle instruction =
      some ⟨live.onto base, state.shown ++ [observation.onto base live.params]⟩)
    (params : frame.params = before.frame.params) (represents : Represents frame next live)
    (counts : reached = live.params) :
    Advances oracle base before state [instruction] [statement] [reached] next := by
  refine ⟨⟨frame, before.seen ++ [observation]⟩,
    ⟨live.onto base, state.shown ++ [observation.onto base live.params]⟩, [observation],
    ?_, ?_, rfl, rfl, ?_, ?_⟩
  · rw [Statement.performAll_singleton, performs]
  · simp [BlockState.run, steps]
  · simp [counts]
  · refine ⟨params.trans accords.params, ⟨live, represents, rfl⟩, ?_⟩
    have events := accords.events
    unfold BlockState.events Run.events at events ⊢
    rw [List.filterMap_append, List.filterMap_append, events]
    simp only [List.filterMap_cons, Observation.event?_onto]

/-- A jump is decided by the same words and passes on those that are live. -/
theorem jump (oracle : Oracle) (accords : Accords base symbolic before state)
    (regular : instruction.Regular) (jumps : instruction.op.isJump = true)
    (enough : (symbolic.fetch instruction).2.stack.params ≤ base.length) :
    Advances oracle base before state [instruction]
      [.jump (some instruction.offset)
        (((symbolic.fetch instruction).1.head?.map Callee.computed).getD .fault)
        (Execution.condition? instruction.op (symbolic.fetch instruction).1)
        (symbolic.fetch instruction).2.stack.items]
      [(symbolic.fetch instruction).2.stack.params]
      { (symbolic.fetch instruction).2 with
        depth := (symbolic.fetch instruction).2.depth + instruction.op.pushes } := by
  rcases accords.stack with ⟨live, represents, stack⟩
  rcases represents.fetch (accords.supplied enough) with ⟨values, below⟩
  have notPush : instruction.op.kind ≠ .push := by
    rcases Opcode.isJump_iff.mp jumps with kind | kind <;> simp [kind]
  have taken := BlockState.operands?_onto regular notPush (below.params ▸ enough)
  rw [← stack] at taken
  have steps := BlockState.step_jump oracle regular.standard.op jumps taken
    (BlockState.length_fetch regular notPush _)
  generalize live.fetch (argumentsOf base) instruction = fetched at values below steps
  have passed := Frame.values?_eq_some_iff.mpr below.items
  refine accords.shows (.jumped (some instruction.offset)
    ((fetched.1.head?.map Destination.offset).getD .fault)
    (if instruction.op.kind = .jumpIf then fetched.1[1]? else none) fetched.2.items)
    ?_ steps rfl ⟨below.items, below.params, below.fresh⟩ below.params
  simp [Statement.perform, Represents.destination?_eq values, Represents.condition?_eq values,
    passed]

/-- An assignment performs what its instruction performs, and keeps the results that the
instruction leaves on the stack. -/
theorem assign (oracle : Oracle) (accords : Accords base symbolic before state)
    (regular : instruction.Regular) (notDest : instruction.op.kind ≠ .jumpDest)
    (notJump : instruction.op.isJump = false) (notShuffle : instruction.op.isShuffle = false)
    (enough : (symbolic.fetch instruction).2.stack.params ≤ base.length) :
    Advances oracle base before state [instruction]
      [.assign instruction.offset (symbolic.targets instruction.op.pushes) instruction.op
        (symbolic.fetch instruction).1]
      [(symbolic.fetch instruction).2.stack.params]
      { (symbolic.fetch instruction).2 with
        depth := (symbolic.fetch instruction).2.depth + instruction.op.pushes
        stack := (symbolic.fetch instruction).2.stack.pushAll
          (symbolic.targets instruction.op.pushes).reverse
        nextVar := symbolic.nextVar + instruction.op.pushes } := by
  rcases accords.stack with ⟨live, represents, stack⟩
  rcases represents.fetch (accords.supplied enough) with ⟨values, below⟩
  have steps := BlockState.step_perform oracle regular notDest notJump notShuffle stack
    (below.params ▸ enough)
  have size := live.length_fetch_of_push regular.standard (argumentsOf base)
  generalize live.fetch (argumentsOf base) instruction = fetched at values below steps size
  let event : Event := ⟨instruction.offset, instruction.op, fetched.1⟩
  let results := event.results (oracle before.events event)
  have count : results.length = instruction.op.pushes := Event.length_results _ size
  -- What the live words have seen plays no part: an accord compares the events themselves.
  have represented := below.assign count
    ((symbolic.fetch instruction).2.depth + instruction.op.pushes) []
  simp only [Execution.targets, Execution.nextVar_fetch] at represented
  rw [accords.events] at steps
  refine accords.shows (.performed event) ?_ ?_ ?_ represented below.params
  · simp [Statement.perform, Frame.values?_eq_some_iff.mpr values, results, event,
      Execution.targets, Oracle.showing, Reading.sight, Run.events]
  · rw [steps]
    simp [Live.onto, Live.pushAll, Observation.onto, results, event]
  · exact Frame.params_assign _ _ _

/-- One instruction and the statement that it leaves act alike on the stack. -/
theorem step (oracle : Oracle) (accords : Accords base symbolic before state)
    (regular : instruction.Regular)
    (enough : (symbolic.step instruction).2.stack.params ≤ base.length) :
    Advances oracle base before state [instruction] (symbolic.step instruction).1.toList
      ((symbolic.step instruction).1.toList.map fun _ =>
        (symbolic.step instruction).2.stack.params)
      (symbolic.step instruction).2 := by
  have effect := Execution.effect_step symbolic regular.standard.op
  generalize (symbolic.step instruction).1 = statement at effect
  generalize (symbolic.step instruction).2 = next at effect enough
  cases effect with
  | skip dest =>
      rcases accords.stack with ⟨live, represents, stack⟩
      apply accords.silent represents
      simp [BlockState.step, dest, ← stack]
  | shuffle shuffles bare =>
      rcases accords.stack with ⟨live, represents, stack⟩
      have represented := represents.shuffled (accords.supplied enough)
      apply accords.silent represented
      exact BlockState.step_shuffle oracle regular.standard.op shuffles stack
        (represented.params ▸ enough)
  | jump jumps => exact accords.jump oracle regular jumps enough
  | assign notDest notJump notShuffle =>
      have notMoved : instruction.op.isShuffle = false := by
        rw [← Bool.not_eq_true]
        exact fun shuffles => notShuffle shuffles (regular.bare shuffles)
      exact accords.assign oracle regular notDest notJump notMoved enough

/-- Instructions and the statements that they leave act alike on the stack. -/
theorem run (oracle : Oracle) {instructions : List Instruction}
    (accords : Accords base symbolic before state)
    (regular : ∀ instruction ∈ instructions, instruction.Regular)
    (enough : (symbolic.run instructions).2.stack.params ≤ base.length) :
    Advances oracle base before state instructions (symbolic.run instructions).1
      (symbolic.reached instructions) (symbolic.run instructions).2 := by
  induction instructions generalizing symbolic before state with
  | nil => exact ⟨before, state, [], rfl, rfl, rfl, by simp, by simp [Execution.reached], accords⟩
  | cons instruction rest ih =>
      rw [List.forall_mem_cons] at regular
      rw [Execution.run_cons] at enough ⊢
      have less := Execution.params_le_run (symbolic.step instruction).2
        fun instruction member => (regular.2 instruction member).standard
      apply (accords.step oracle regular.1 (Nat.le_trans less enough)).trans
      intro after middle accord
      exact ih accord regular.2 enough

end Accords

namespace Block

/-- The number of parameters that were read up to each statement of the routine. -/
def reached (block : Block) (supply : Supply) : List Nat :=
  Execution.reached { nextVar := supply.nextVar } block.instructions

/-- A block of instructions of the table is a routine, and the routine does on the slots of any
stack that is deep enough what the instructions do on the stack. -/
theorem lift_executes (oracle : Oracle) (supply : Supply) (block : Block)
    (regular : ∀ instruction ∈ block.instructions, instruction.Regular) :
    ∃ routine, (block.lift supply).1 = .ok routine ∧
      (block.reached supply).length = routine.body.length ∧
      (∀ count ∈ block.reached supply, count ≤ routine.arity) ∧
      ∀ stack : List Word, routine.arity ≤ stack.length →
        ∃ run returned,
          Statement.performAll oracle.showing ⟨⟨fun index => stack[index]?, fun _ => none⟩, []⟩
              routine.body = some run ∧
            run.seen.length = routine.body.length ∧
            run.frame.values? routine.returns = some returned ∧
            BlockState.run oracle ⟨stack, []⟩ block.instructions =
              some ⟨returned ++ stack.drop routine.arity,
                List.zipWith (Observation.onto stack) (block.reached supply) run.seen⟩ := by
  have standard : ∀ instruction ∈ block.instructions, instruction.Standard :=
    fun instruction member => (regular instruction member).standard
  refine ⟨block.routine supply, by rw [lift_eq supply standard], Execution.length_reached _ _,
    Execution.le_of_mem_reached _ standard, ?_⟩
  intro stack enough
  have start : Accords stack { nextVar := supply.nextVar }
      ⟨⟨fun index => stack[index]?, fun _ => none⟩, []⟩ ⟨stack, []⟩ :=
    ⟨rfl, ⟨{}, ⟨rfl, rfl, by simp⟩, rfl⟩, rfl⟩
  rcases start.run oracle regular enough with
    ⟨run, final, new, performs, runs, size, seen, shown, accords⟩
  rcases accords.stack with ⟨live, represents, left⟩
  rw [List.nil_append] at seen shown
  refine ⟨run, live.items, performs, ?_, Frame.values?_eq_some_iff.mpr represents.items, ?_⟩
  · rw [seen, size]
    exact Execution.length_reached _ _
  · have ends : final = ⟨live.onto stack, _⟩ := BlockState.ext left shown
    rw [runs, ends, Live.onto, ← represents.params, seen]
    rfl

/-- A conditional jump on exchanged slots reads two arguments, and dropping one more word reads
a third. -/
theorem lift_executes_exchanged :
    ∃ routine, ((Block.mk 0 (Bytecode.decode [0x90, 0x57, 0x50])).lift {}).1 = .ok routine ∧
      routine.arity = 3 ∧
      ∃ run returned,
        Statement.performAll (Oracle.showing fun _ _ _ => 0)
          ⟨⟨fun index => [7, 8, 9, 6][index]?, fun _ => none⟩, []⟩ routine.body = some run ∧
        run.frame.values? routine.returns = some returned ∧
        BlockState.run (fun _ _ _ => 0) ⟨[7, 8, 9, 6], []⟩ (Bytecode.decode [0x90, 0x57, 0x50]) =
          some ⟨returned ++ [6], List.zipWith (Observation.onto [7, 8, 9, 6])
            (Block.reached ⟨0, Bytecode.decode [0x90, 0x57, 0x50]⟩ {}) run.seen⟩ := by
  rcases lift_executes (fun _ _ _ => 0) {} ⟨0, Bytecode.decode [0x90, 0x57, 0x50]⟩
    Bytecode.regular_of_mem_decode with ⟨routine, lifts, _, _, executes⟩
  have arity : (((Block.mk 0 (Bytecode.decode [0x90, 0x57, 0x50])).lift {}).1.map Routine.arity) =
      .ok 3 := by decide +kernel
  rw [lifts] at arity
  replace arity : routine.arity = 3 := Except.ok.inj arity
  rcases executes [7, 8, 9, 6] (by rw [arity]; decide) with ⟨run, returned, runs, _, returns, left⟩
  rw [arity] at left
  exact ⟨routine, lifts, arity, run, returned, runs, returns, left⟩

end Block

end EvmLift
