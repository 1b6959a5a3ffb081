import EvmLift.Proofs.Lifting.Balance
import EvmLift.Proofs.Semantics.Frame

/-!
# The meaning of lifted routines

A routine does on its parameters what the instructions of its block do on the words of
a stack: it shows the same observations, and its returned values are the words that the
block leaves. The invariant relates the symbolic stack to the live words through the
frame in which the statements run.
-/

namespace EvmLift

/-- An event leaves as many words as its opcode declares. -/
theorem Event.length_results {event : Event} (answer : Nat → Word)
    (size : event.op.kind = .push → event.operands.length = event.op.pushes) :
    (event.results answer).length = event.op.pushes := by
  simp only [results, Opcode.isPush_iff]
  split
  · exact size ‹_›
  · simp

/-- The operand of a push is what it leaves. -/
theorem Live.length_fetch_of_push {instruction : Instruction} (standard : instruction.Standard)
    (args : Nat → Word) (live : Live) (push : instruction.op.kind = .push) :
    (live.fetch args instruction).1.length = instruction.op.pushes := by
  rcases standard.pushed push with ⟨word, carried⟩
  simp [Live.fetch, carried, (standard.op.push push).2]

/-- A frame gives the values of the symbolic stack their live words. The variables on
the stack are older than the next one. -/
structure Represents (frame : Frame) (state : Execution) (live : Live) : Prop where
  items : state.stack.items.map frame.value? = live.items.map some
  params : state.stack.params = live.params
  fresh : ∀ id, .var id ∈ state.stack.items → id < state.nextVar

namespace Represents

variable {interpretation : Interpretation} {args : Nat → Word} {frame : Frame}
variable {state : Execution} {live : Live} {instruction : Instruction}

theorem length_items (represents : Represents frame state live) :
    state.stack.items.length = live.items.length := by
  simpa using congrArg List.length represents.items

/-- Values that are taken have the words that are taken. -/
theorem map_popMany (represents : Represents frame state live) {count : Nat}
    (supplied : ∀ index < (state.stack.popMany count).2.params,
      frame.params index = some (args index)) :
    (state.stack.popMany count).1.map frame.value? = (live.top args count).map some := by
  have size := represents.length_items
  rw [SymbolicStack.params_popMany] at supplied
  rw [SymbolicStack.values_popMany, Live.top, List.map_append, List.map_append, List.map_take,
    represents.items, List.map_take, ← represents.params, ← size]
  congr 1
  rw [List.map_map, List.map_map]
  apply List.map_congr_left
  intro index member
  rw [List.mem_range'_1] at member
  exact supplied index member.2

theorem popMany (represents : Represents frame state live) (count : Nat) (depth : Int) :
    Represents frame { state with stack := (state.stack.popMany count).2, depth }
      (live.drop count) where
  items := by
    simp only [SymbolicStack.items_popMany, Live.drop, List.map_drop, represents.items]
  params := by
    simp only [SymbolicStack.params_popMany, Live.drop, represents.params, represents.length_items]
  fresh := by
    intro id member
    rw [SymbolicStack.items_popMany] at member
    exact represents.fresh id (List.mem_of_mem_drop member)

theorem fetch (represents : Represents frame state live)
    (supplied : ∀ index < (state.fetch instruction).2.stack.params,
      frame.params index = some (args index)) :
    (state.fetch instruction).1.map frame.value? = (live.fetch args instruction).1.map some ∧
      Represents frame (state.fetch instruction).2 (live.fetch args instruction).2 := by
  unfold Execution.fetch Live.fetch at *
  cases constants : instruction.constants with
  | some words =>
      refine ⟨?_, represents⟩
      simp [Function.comp_def, Frame.value?]
  | none =>
      simp only [constants] at supplied
      exact ⟨represents.map_popMany supplied, represents.popMany _ _⟩

theorem shuffled (represents : Represents frame state live) {op : Opcode}
    (supplied : ∀ index < (state.shuffled op).stack.params,
      frame.params index = some (args index)) :
    Represents frame (state.shuffled op) (live.shuffle args op) := by
  have popped := represents.popMany op.pops (state.depth + op.effect)
  have words : (state.stack.popMany op.pops).1.map frame.value? = _ :=
    represents.map_popMany supplied
  refine ⟨?_, popped.params, ?_⟩
  · simp only [Execution.shuffled, SymbolicStack.pushAll, Live.shuffle, Live.pushAll,
      List.map_append, Opcode.map_rearrange, words]
    exact congrArg _ popped.items
  · intro id member
    -- A shuffle leaves no value that it did not find.
    have old : Value.var id ∈ state.stack.items := by
      simp only [Execution.shuffled, SymbolicStack.pushAll, List.mem_append] at member
      rcases member with moved | kept
      · have found := Opcode.mem_of_mem_rearrange moved
        simp only [SymbolicStack.values_popMany, List.mem_append, List.mem_map, reduceCtorEq,
          and_false, exists_false, or_false] at found
        exact List.mem_of_mem_take found
      · rw [SymbolicStack.items_popMany] at kept
        exact List.mem_of_mem_drop kept
    exact represents.fresh id old

/-- The first operand says where a jump goes. -/
theorem destination?_eq {operands : List Value} {words : List Word}
    (values : operands.map frame.value? = words.map some) :
    frame.destination? ((operands.head?.map Callee.computed).getD .fault) =
      some ((words.head?.map Destination.offset).getD .fault) := by
  cases operands <;> cases words <;> simp_all [Frame.destination?]

/-- The second operand decides a conditional jump. -/
theorem condition?_eq {operands : List Value} {words : List Word}
    (values : operands.map frame.value? = words.map some) (op : Opcode) :
    frame.condition? (Execution.condition? op operands) =
      some (if op.kind = .jumpIf then words[1]? else none) := by
  have second : operands[1]?.map frame.value? = words[1]?.map some := by
    rw [← List.getElem?_map, values, List.getElem?_map]
  unfold Execution.condition?
  split
  · cases found : operands[1]? <;> cases known : words[1]? <;> simp_all [Frame.condition?]
  · rfl

/-- A jump reads its operands and the live words. -/
theorem perform_jump (represents : Represents frame state live) {operands : List Value}
    {words : List Word} (values : operands.map frame.value? = words.map some)
    (jumps : instruction.op.isJump = true) :
    Statement.perform interpretation ⟨frame, live.seen⟩
        (.jump (some instruction.offset) ((operands.head?.map Callee.computed).getD .fault)
          (Execution.condition? instruction.op operands) state.stack.items) =
      some ⟨frame, (live.act interpretation instruction words).seen⟩ := by
  have passed := Frame.values?_eq_some_iff.mpr represents.items
  rcases Opcode.isJump_iff.mp jumps with kind | kind <;>
    simp [Statement.perform, destination?_eq values, condition?_eq values, passed, kind, Live.act,
      Live.jump]

/-- Fresh variables are not on the stack. -/
theorem map_value?_assign (represents : Represents frame state live) (count : Nat)
    (results : List Word) :
    state.stack.items.map (frame.assign (state.targets count) results).value? =
      state.stack.items.map frame.value? := by
  apply List.map_congr_left
  intro value member
  cases value with
  | const word => rfl
  | param index => simp [Frame.value?]
  | var id =>
      apply Frame.vars_assign_of_not_mem
      have older := represents.fresh id member
      simp only [Execution.targets, List.mem_map, Value.var.injEq, exists_eq_right,
        List.mem_range'_1]
      omega

/-- Words that fresh variables are assigned are pushed together with the variables. -/
theorem assign (represents : Represents frame state live) {count : Nat} {results : List Word}
    (size : results.length = count) (depth : Int) (seen : List Observation) :
    Represents (frame.assign (state.targets count) results)
      { state with
        depth
        stack := state.stack.pushAll (state.targets count).reverse
        nextVar := state.nextVar + count }
      { live.pushAll results.reverse with seen } where
  items := by
    have assigned := Frame.map_vars_assign_range' frame state.nextVar results
    rw [size] at assigned
    simp only [SymbolicStack.pushAll, Live.pushAll, List.map_append, List.map_reverse,
      represents.map_value?_assign, represents.items]
    congr 2
    rw [Execution.targets, List.map_map]
    exact assigned
  params := represents.params
  fresh := by
    intro id member
    simp only [SymbolicStack.pushAll, List.mem_append, List.mem_reverse, Execution.targets,
      List.mem_map, Value.var.injEq, exists_eq_right, List.mem_range'_1] at member
    show id < state.nextVar + count
    rcases member with target | older
    · exact target.2
    · have bound := represents.fresh id older
      omega

/-- An assignment gives the results of its event to fresh variables. -/
theorem perform_assign (interpretation : Interpretation)
    (represents : Represents frame state live) {operands : List Value} {words : List Word}
    (values : operands.map frame.value? = words.map some)
    (size : instruction.op.kind = .push → words.length = instruction.op.pushes)
    (notJump : instruction.op.isJump = false) (depth : Int) :
    ∃ after : Frame, after.params = frame.params ∧
      Statement.perform interpretation ⟨frame, live.seen⟩
          (.assign instruction.offset (state.targets instruction.op.pushes) instruction.op
            operands) =
        some ⟨after, (live.act interpretation instruction words).seen⟩ ∧
      Represents after
        { state with
          depth
          stack := state.stack.pushAll (state.targets instruction.op.pushes).reverse
          nextVar := state.nextVar + instruction.op.pushes }
        (live.act interpretation instruction words) := by
  let event : Event := ⟨instruction.offset, instruction.op, words⟩
  let results := event.results (interpretation.answer live.seen event)
  have count : results.length = instruction.op.pushes := Event.length_results _ size
  have acts : live.act interpretation instruction words = live.perform interpretation event :=
    Live.act_of_not_isJump notJump
  refine ⟨frame.assign (state.targets instruction.op.pushes) results,
    Frame.params_assign _ _ _, ?_, ?_⟩
  · simp [Statement.perform, Frame.values?_eq_some_iff.mpr values, acts, Live.perform,
      results, event]
  · rw [acts]
    exact represents.assign count depth _

/-- One instruction and the statement that it leaves act alike. -/
theorem step (interpretation : Interpretation) (represents : Represents frame state live)
    (standard : instruction.Standard)
    (supplied : ∀ index < (state.step instruction).2.stack.params,
      frame.params index = some (args index)) :
    ∃ after : Frame, after.params = frame.params ∧
      Statement.performAll interpretation ⟨frame, live.seen⟩
          (state.step instruction).1.toList =
        some ⟨after, (live.step interpretation args instruction).seen⟩ ∧
      Represents after (state.step instruction).2
        (live.step interpretation args instruction) := by
  have effect := Execution.effect_step state standard.op
  generalize (state.step instruction).1 = statement at effect
  generalize (state.step instruction).2 = next at effect supplied
  cases effect with
  | skip dest =>
      rw [Live.step_of_dest dest]
      exact ⟨frame, rfl, rfl, represents⟩
  | shuffle shuffles bare =>
      rw [Live.step_of_shuffle shuffles bare]
      exact ⟨frame, rfl, rfl, represents.shuffled supplied⟩
  | jump jumps =>
      obtain ⟨values, below⟩ := represents.fetch supplied
      have kinds := Opcode.isJump_iff.mp jumps
      rw [Live.step_eq_act (by rcases kinds with kind | kind <;> simp [kind])
        (by rcases kinds with kind | kind <;> simp [Opcode.isShuffle, kind])]
      refine ⟨frame, rfl, ?_, ?_, ?_, below.fresh⟩
      · rw [← Live.seen_fetch args live instruction]
        simp [below.perform_jump values jumps]
      · rw [(Live.act_of_isJump jumps).1]
        exact below.items
      · rw [(Live.act_of_isJump jumps).2]
        exact below.params
  | assign notDest notJump notShuffle =>
      obtain ⟨values, below⟩ := represents.fetch supplied
      have size := live.length_fetch_of_push standard args
      obtain ⟨after, params, performs, represented⟩ :=
        below.perform_assign interpretation values size notJump
          ((state.fetch instruction).2.depth + instruction.op.pushes)
      rw [Live.step_eq_act notDest notShuffle]
      simp only [Execution.targets, Execution.nextVar_fetch] at performs represented
      refine ⟨after, params, ?_, represented⟩
      rw [← Live.seen_fetch args live instruction]
      simp [Execution.targets, performs]

/-- Instructions and the statements that they leave act alike. -/
theorem run (interpretation : Interpretation) {instructions : List Instruction}
    (represents : Represents frame state live)
    (standard : ∀ instruction ∈ instructions, instruction.Standard)
    (supplied : ∀ index < (state.run instructions).2.stack.params,
      frame.params index = some (args index)) :
    ∃ after : Frame, after.params = frame.params ∧
      Statement.performAll interpretation ⟨frame, live.seen⟩ (state.run instructions).1 =
        some ⟨after, (live.run interpretation args instructions).seen⟩ ∧
      Represents after (state.run instructions).2
        (live.run interpretation args instructions) := by
  induction instructions generalizing frame state live with
  | nil => exact ⟨frame, rfl, rfl, represents⟩
  | cons instruction rest ih =>
      rw [List.forall_mem_cons] at standard
      rw [Execution.run_cons] at supplied ⊢
      obtain ⟨middle, sameParams, performs, represented⟩ :=
        represents.step interpretation standard.1
          fun index below => supplied index
            (Nat.lt_of_lt_of_le below (Execution.params_le_run _ standard.2))
      obtain ⟨after, params, performsRest, representedRest⟩ :=
        ih represented standard.2 (sameParams ▸ supplied)
      refine ⟨after, params.trans sameParams, ?_, representedRest⟩
      rw [Statement.performAll_append, performs]
      exact performsRest

end Represents

namespace Block

/-- What a routine of a block shows and returns on arguments is what the instructions of
the block show and leave on them. -/
theorem meaning?_routine (interpretation : Interpretation) {args : Nat → Word}
    {params : Nat → Option Word} {block : Block} {supply : Supply}
    (standard : ∀ instruction ∈ block.instructions, instruction.Standard)
    (supplied : ∀ index < (block.routine supply).arity, params index = some (args index)) :
    (block.routine supply).meaning? interpretation params =
      some ((Live.run interpretation args {} block.instructions).seen,
        (Live.run interpretation args {} block.instructions).items) := by
  have start : Represents ⟨params, fun _ => none⟩ { nextVar := supply.nextVar } {} :=
    ⟨rfl, rfl, by simp⟩
  obtain ⟨after, sameParams, performs, represents⟩ := start.run interpretation standard supplied
  have returned := Frame.values?_eq_some_iff.mpr represents.items
  rw [Routine.meaning?, Routine.runIn?_eq_some_iff]
  exact ⟨_, performs, returned, rfl⟩

theorem arity_routine (interpretation : Interpretation) (args : Nat → Word) (block : Block)
    (supply : Supply)
    (standard : ∀ instruction ∈ block.instructions, instruction.Standard) :
    (block.routine supply).arity =
      (Live.run interpretation args {} block.instructions).params := by
  have start : Represents ⟨fun index => some (args index), fun _ => none⟩
      { nextVar := supply.nextVar } {} :=
    ⟨rfl, rfl, by simp⟩
  obtain ⟨after, sameParams, performs, represents⟩ :=
    start.run interpretation standard fun _ _ => rfl
  exact represents.params

end Block

end EvmLift
