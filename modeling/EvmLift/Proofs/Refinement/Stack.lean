import EvmLift.Proofs.Machine.Code
import EvmLift.Proofs.Machine.Simulation
import EvmLift.Proofs.Semantics.Stack

/-!
# Code on a stack

The code machine does on its stack what instructions do on live words, up to the first
observation after which control does not go on. The stack holds the live words, and below
them the arguments that were not yet taken.
-/

namespace EvmLift

namespace CodeState

/-- A state whose stack holds the live words and the arguments below them. -/
structure Holds (past : List Event) (base : List Word) (live : Live) (state : CodeState) :
    Prop where
  stack : state.stack = live.items ++ base.drop live.params
  events : state.events = past ++ live.seen.filterMap Observation.event?

/-- What the code machine does where control does not go on. -/
inductive Leaves (oracle : Oracle) (code : List Instruction) (base : List Word)
    (state : CodeState) : Observation → Prop where
  | ends {event : Event}
      (stops : step oracle code state = .error ⟨state.events ++ [event], .terminated⟩) :
      Leaves oracle code base state (.performed event)
  | jumps {offset : Nat} {target : Word} {condition : Option Word} {items : List Word}
      {params : Nat} (taken : state.taken? = some (offset, target))
      (goes : step oracle code state =
        jump code ⟨[], items ++ base.drop params, state.events⟩ target) :
      Leaves oracle code base state (.jumped (some offset) (.offset target) condition items)

namespace Holds

variable {oracle : Oracle} {code : List Instruction} {past : List Event} {base : List Word}
variable {live : Live} {state : CodeState} {instruction : Instruction} {rest : List Instruction}

theorem take_stack (holds : Holds past base live state) {count : Nat}
    (enough : (live.drop count).params ≤ base.length) :
    state.stack.take count = live.top (argumentsOf base) count := by
  rw [holds.stack]
  exact Live.take_onto enough

theorem drop_stack (holds : Holds past base live state) (count : Nat) :
    state.stack.drop count = (live.drop count).items ++ base.drop (live.drop count).params := by
  rw [holds.stack]
  exact Live.drop_onto live base count

/-- The stack is what an instruction takes, on top of the rest. -/
theorem stack_eq (holds : Holds past base live state) {count : Nat}
    (enough : (live.drop count).params ≤ base.length) :
    state.stack = live.top (argumentsOf base) count ++ (live.drop count).onto base :=
  holds.stack.trans (Live.onto_eq enough)

theorem step_eq (fetched : state.rest = instruction :: rest) :
    CodeState.step oracle code state = execute oracle code { state with rest } instruction := by
  simp [CodeState.step, fetched]

/-- Shuffles move the same slots. -/
theorem shuffle (holds : Holds past base live state) (fetched : state.rest = instruction :: rest)
    (standard : instruction.op.Standard) (shuffles : instruction.op.isShuffle = true)
    (enough : (live.drop instruction.op.pops).params ≤ base.length) :
    ∃ next, CodeState.step oracle code state = .ok next ∧ next.rest = rest ∧
      Holds past base (live.shuffle (argumentsOf base) instruction.op) next := by
  have size := live.length_top (argumentsOf base) instruction.op.pops
  have stack := holds.stack_eq enough
  have moved := live.onto_shuffle base instruction.op
  refine ⟨⟨rest, (live.shuffle (argumentsOf base) instruction.op).onto base, state.events⟩, ?_,
    rfl, rfl, holds.events⟩
  rw [step_eq fetched, moved]
  rcases Opcode.isShuffle_iff.mp shuffles with kind | kind
  · rcases standard.rearrange_dup kind size with ⟨copied, found, moves⟩
    rw [← stack] at found
    simp only [execute, kind, found]
    rw [moves, ← stack]
  · rcases standard.rearrange_swap kind size with ⟨top, deep, first, second, moves⟩
    rw [← stack] at first second
    simp only [execute, kind, first, second]
    rw [moves, ← stack]

/-- A push leaves its constant. -/
theorem push (holds : Holds past base live state) (fetched : state.rest = instruction :: rest)
    {word : Word} (kind : instruction.op.kind = .push)
    (carried : instruction.constants = some [word]) :
    ∃ next, CodeState.step oracle code state = .ok next ∧ next.rest = rest ∧
      Holds past base (live.pushAll [word]) next := by
  refine ⟨⟨rest, word :: state.stack, state.events⟩, ?_, rfl, ?_, holds.events⟩
  · rw [step_eq fetched]
    simp [execute, kind, carried]
  · rw [holds.stack]
    rfl

theorem execute_eq (kind : instruction.op.kind = .plain ∨ instruction.op.kind = .fault)
    (enough : instruction.op.pops ≤ state.stack.length) :
    execute oracle code state instruction =
      let event : Event :=
        ⟨instruction.offset, instruction.op, state.stack.take instruction.op.pops⟩
      if instruction.op.terminates then .error ⟨state.events ++ [event], .terminated⟩
      else
        .ok ⟨state.rest, (event.results (oracle state.events event)).reverse ++
          state.stack.drop instruction.op.pops, state.events ++ [event]⟩ := by
  have notShort : ¬state.stack.length < instruction.op.pops := Nat.not_lt.mpr enough
  rcases kind with kind | kind <;> simp [execute, kind, notShort]

/-- Whatever is neither moved nor jumped is performed. -/
theorem perform (oracle : Oracle) (code : List Instruction) (holds : Holds past base live state)
    (fetched : state.rest = instruction :: rest)
    (kind : instruction.op.kind = .plain ∨ instruction.op.kind = .fault)
    (bare : instruction.constants = none)
    (enough : (live.drop instruction.op.pops).params ≤ base.length) :
    ∃ event : Event, event.op = instruction.op ∧
      (live.step (oracle.after past) (argumentsOf base) instruction).seen =
        live.seen ++ [.performed event] ∧
      if event.op.terminates then
        CodeState.step oracle code state = .error ⟨state.events ++ [event], .terminated⟩
      else
        ∃ next, CodeState.step oracle code state = .ok next ∧ next.rest = rest ∧
          Holds past base (live.step (oracle.after past) (argumentsOf base) instruction) next := by
  have notPush : instruction.op.isPush = false := by
    rcases kind with kind | kind <;> simp [Opcode.isPush, kind]
  have acts : live.step (oracle.after past) (argumentsOf base) instruction =
      (live.drop instruction.op.pops).perform (oracle.after past) ⟨instruction.offset,
        instruction.op, live.top (argumentsOf base) instruction.op.pops⟩ := by
    rw [Live.step_eq_act, Live.act_of_not_isJump]
    · simp [Live.fetch, bare]
    · rcases kind with kind | kind <;> simp [Opcode.isJump, kind]
    · rcases kind with kind | kind <;> simp [kind]
    · rcases kind with kind | kind <;> simp [Opcode.isShuffle, kind]
  have enoughStack : instruction.op.pops ≤ state.stack.length := by
    rw [holds.stack_eq enough, List.length_append, Live.length_top]
    omega
  refine ⟨⟨instruction.offset, instruction.op, live.top (argumentsOf base) instruction.op.pops⟩,
    rfl, ?_, ?_⟩
  · rw [acts]
    simp [Live.perform, Reading.sight, Oracle.after, notPush, Live.drop]
  · have executes : execute oracle code { state with rest } instruction = _ :=
      execute_eq kind enoughStack
    simp only [holds.take_stack enough, holds.drop_stack] at executes
    rw [step_eq fetched, executes]
    split
    · rfl
    · refine ⟨_, rfl, rfl, ?_, ?_⟩
      · rw [acts, holds.events]
        simp [Live.perform, Live.pushAll, Live.drop, Oracle.after]
      · rw [acts, holds.events]
        simp [Live.perform, Reading.sight, Oracle.after, notPush, Live.drop,
          Observation.event?]

/-- Jumps look at the same target and condition, and leave the same stack. -/
theorem jump (oracle : Oracle) (code : List Instruction) (holds : Holds past base live state)
    (fetched : state.rest = instruction :: rest) (standard : instruction.op.Standard)
    (jumps : instruction.op.isJump = true) (bare : instruction.constants = none)
    (enough : (live.drop instruction.op.pops).params ≤ base.length) :
    ∃ target condition,
      live.step (oracle.after past) (argumentsOf base) instruction =
        { live.drop instruction.op.pops with
          seen := live.seen ++ [.jumped (some instruction.offset) (.offset target) condition
            (live.drop instruction.op.pops).items] } ∧
      if condition = some 0 then
        CodeState.step oracle code state =
          .ok ⟨rest, state.stack.drop instruction.op.pops, state.events⟩
      else
        state.taken? = some (instruction.offset, target) ∧
          CodeState.step oracle code state = CodeState.jump code
            ⟨rest, state.stack.drop instruction.op.pops, state.events⟩ target := by
  have size := live.length_top (argumentsOf base) instruction.op.pops
  have stack := List.take_append_drop instruction.op.pops state.stack
  rw [holds.take_stack enough] at stack
  have acts : live.step (oracle.after past) (argumentsOf base) instruction =
      (live.drop instruction.op.pops).act (oracle.after past) instruction
        (live.top (argumentsOf base) instruction.op.pops) := by
    rw [Live.step_eq_act]
    · simp [Live.fetch, bare]
    · rcases Opcode.isJump_iff.mp jumps with kind | kind <;> simp [kind]
    · rcases Opcode.isJump_iff.mp jumps with kind | kind <;> simp [Opcode.isShuffle, kind]
  rw [acts, step_eq fetched]
  generalize live.top (argumentsOf base) instruction.op.pops = operands at size stack
  generalize state.stack.drop instruction.op.pops = below at stack
  rcases Opcode.isJump_iff.mp jumps with kind | kind
  · rw [(standard.jump kind).1] at size
    obtain ⟨target, rfl⟩ := List.length_eq_one_iff.mp size
    refine ⟨target, none, ?_, ?_⟩
    · simp [Live.act, kind, Live.jump, Live.drop]
    · simp [execute, kind, ← stack, taken?, fetched]
  · rw [(standard.jumpIf kind).1] at size
    obtain ⟨target, condition, rfl⟩ := List.length_eq_two.mp size
    refine ⟨target, some condition, ?_, ?_⟩
    · simp [Live.act, kind, Live.jump, Live.drop]
    · by_cases zero : condition = 0#256 <;> simp [execute, kind, ← stack, taken?, fetched, zero]

/-- At every instruction control goes on as on live words, or leaves with what is seen. -/
theorem step (code : List Instruction) (holds : Holds past base live state)
    (fetched : state.rest = instruction :: rest) (plain : instruction.Plain)
    (enough : (live.step (oracle.after past) (argumentsOf base) instruction).params ≤
      base.length) :
    (∃ new, (live.step (oracle.after past) (argumentsOf base) instruction).seen =
        live.seen ++ new ∧
      (∀ observation ∈ new, observation.isExit = false) ∧
      ∃ next, CodeState.step oracle code state = .ok next ∧ next.rest = rest ∧
        Holds past base (live.step (oracle.after past) (argumentsOf base) instruction) next) ∨
    ∃ exit, (live.step (oracle.after past) (argumentsOf base) instruction).seen =
        live.seen ++ [exit] ∧
      exit.isExit = true ∧ Leaves oracle code base state exit := by
  by_cases dest : instruction.op.kind = .jumpDest
  · rw [Live.step_of_dest dest]
    refine .inl ⟨[], by simp, by simp, ⟨rest, state.stack, state.events⟩, ?_, rfl, holds.stack,
      holds.events⟩
    rw [step_eq fetched]
    simp [execute, dest]
  by_cases isPush : instruction.op.kind = .push
  · obtain ⟨word, carried⟩ := plain.pushed isPush
    rw [Live.step_push isPush carried]
    exact .inl ⟨[], by simp [Live.pushAll], by simp, holds.push fetched isPush carried⟩
  have bare := plain.bare isPush
  by_cases shuffles : instruction.op.isShuffle = true
  · rw [Live.step_of_shuffle shuffles bare] at enough ⊢
    exact .inl ⟨[], by simp [Live.shuffle, Live.pushAll, Live.drop], by simp,
      holds.shuffle fetched plain.op shuffles enough⟩
  have taken : (live.step (oracle.after past) (argumentsOf base) instruction).params =
      (live.drop instruction.op.pops).params := by
    rw [Live.step_eq_act dest (by simp [shuffles]), (Live.act_grows _ _ _ _).2]
    simp [Live.fetch, bare]
  rw [taken] at enough
  by_cases jumps : instruction.op.isJump = true
  · obtain ⟨target, condition, acts, goes⟩ :=
      holds.jump oracle code fetched plain.op jumps bare enough
    rw [acts]
    split at goes
    next zero =>
      refine .inl ⟨_, rfl, by simp [Observation.isExit, zero], _, goes, rfl, holds.drop_stack _, ?_⟩
      rw [holds.events]
      simp [Observation.event?]
    next taken =>
      rw [holds.drop_stack] at goes
      exact .inr ⟨_, rfl, by simpa [Observation.isExit] using taken, .jumps goes.1 goes.2⟩
  · have kind : instruction.op.kind = .plain ∨ instruction.op.kind = .fault := by
      cases kind : instruction.op.kind <;> simp_all [Opcode.isShuffle, Opcode.isJump]
    obtain ⟨event, same, seen, acts⟩ :=
      holds.perform oracle code fetched kind bare enough
    split at acts
    next terminates => exact .inr ⟨_, seen, terminates, .ends acts⟩
    next goesOn =>
      exact .inl ⟨_, seen, by simpa [Observation.isExit] using goesOn, acts⟩

/-- Through a block control goes on as on live words, up to the first exit that is seen. -/
theorem run (code : List Instruction) {instructions more : List Instruction}
    (holds : Holds past base live state) (placed : state.rest = instructions ++ more)
    (plain : ∀ instruction ∈ instructions, instruction.Plain)
    (enough : (live.run (oracle.after past) (argumentsOf base) instructions).params ≤
      base.length) :
    ∃ new, (live.run (oracle.after past) (argumentsOf base) instructions).seen =
        live.seen ++ new ∧
      ((Observation.firstExit? new = none ∧
        ∃ final, (codeMachine oracle code).run instructions.length state = .ok final ∧
          final.rest = more ∧
          Holds past base (live.run (oracle.after past) (argumentsOf base) instructions) final) ∨
      ∃ before exit final, Observation.firstExit? new = some (before, exit) ∧
        (codeMachine oracle code).Reaches state final ∧
        final.events = past ++ (live.seen ++ before).filterMap Observation.event? ∧
        Leaves oracle code base final exit) := by
  induction instructions generalizing live state with
  | nil => exact ⟨[], by simp, .inl ⟨rfl, state, rfl, placed, holds⟩⟩
  | cons instruction rest ih =>
      rw [List.forall_mem_cons] at plain
      obtain ⟨seenRest, paramsRest⟩ := Live.run_grows (oracle.after past) (argumentsOf base)
        (live.step (oracle.after past) (argumentsOf base) instruction) rest
      rcases holds.step code placed plain.1 (Nat.le_trans paramsRest enough) with
        ⟨new, seen, quiet, next, stepped, placedNext, holdsNext⟩ | ⟨exit, seen, exits, leaves⟩
      · obtain ⟨others, seenOthers, ends⟩ := ih holdsNext placedNext plain.2 enough
        refine ⟨new ++ others, by rw [Live.run_cons, seenOthers, seen, List.append_assoc], ?_⟩
        rw [Observation.firstExit?_append quiet]
        rcases ends with ⟨none, final, ran, placedFinal, holdsFinal⟩ |
          ⟨before, exit, final, found, reaches, events, leaves⟩
        · refine .inl ⟨by simp [none], final, ?_, placedFinal, holdsFinal⟩
          exact (Machine.run_succ stepped _).trans ran
        · refine .inr ⟨new ++ before, exit, final, by simp [found],
            (Machine.Reaches.step stepped).trans reaches, ?_, leaves⟩
          rw [events, seen, List.append_assoc]
      · obtain ⟨after, joined⟩ := seenRest
        refine ⟨exit :: after, ?_, .inr ⟨[], exit, state, Observation.firstExit?_cons exits _,
          .refl _ _, by simpa using holds.events, leaves⟩⟩
        rw [Live.run_cons, ← joined, seen]
        simp

end Holds

theorem events_of_jump {code : List Instruction} {state next : CodeState} {target : Word}
    (jumps : jump code state target = .ok next) : next.events = state.events := by
  unfold jump at jumps
  split at jumps
  · cases jumps
    rfl
  · cases jumps

/-- Executing an instruction adds to the events. -/
theorem events_of_execute {oracle : Oracle} {code : List Instruction} {state next : CodeState}
    {instruction : Instruction} (executes : execute oracle code state instruction = .ok next) :
    state.events <+: next.events := by
  unfold execute at executes
  cases kind : instruction.op.kind with
  | jumpDest | push =>
      simp only [kind] at executes
      cases executes
      exact List.prefix_rfl
  | dup | swap =>
      simp only [kind] at executes
      split at executes <;> cases executes
      exact List.prefix_rfl
  | jump =>
      simp only [kind] at executes
      split at executes
      · exact (events_of_jump executes).symm ▸ List.prefix_rfl
      · cases executes
  | jumpIf =>
      simp only [kind] at executes
      split at executes
      · split at executes
        · cases executes
          exact List.prefix_rfl
        · exact (events_of_jump executes).symm ▸ List.prefix_rfl
      · cases executes
  | plain | fault =>
      simp only [kind] at executes
      split at executes
      · cases executes
      · split at executes <;> cases executes
        exact List.prefix_append _ _

theorem remembers_codeMachine (oracle : Oracle) (code : List Instruction) :
    (codeMachine oracle code).Remembers := by
  intro state next stepped
  replace stepped : step oracle code state = .ok next := stepped
  unfold step at stepped
  split at stepped
  · cases stepped
  · have grown := events_of_execute stepped
    exact grown

end CodeState

end EvmLift
