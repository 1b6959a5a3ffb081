import EvmLift.Proofs.Failure
import EvmLift.Proofs.Refinement.Routines
import EvmLift.Proofs.Refinement.Stack
import EvmLift.Proofs.Refinement.Statements

/-!
# Programs do what their code does

The code machine and the program machine meet at the start of every block that is entered,
where the arguments of the routine are the top of the stack. From there to the next such
place both show what the block shows.
-/

namespace EvmLift

/-- Two runs end alike. Either both halt with the same events and outcome, or the program
leaves for an offset that it does not know, by the jump that the code machine takes next
after the same events. No push gives the target of such a jump. -/
inductive EndsAlike (oracle : Oracle) (code : List Instruction) (lifted program : Program)
    (state : CodeState) (other : ProgramState) : Prop where
  | halts {halt : Halt} (regular : halt.outcome.isRegular = true)
      (codeHalts : (codeMachine oracle code).Halts state halt)
      (programHalts : (programMachine oracle program).Halts other halt)
  | departs {final : CodeState} {offset : Nat} {target : Word}
      (reaches : (codeMachine oracle code).Reaches state final)
      (takes : final.taken? = some (offset, target))
      (blind : lifted.JumpsBlindly (some offset))
      (programHalts : (programMachine oracle program).Halts other
        ⟨final.events, .departed (some offset) target⟩)

/-- Two runs behave alike: they end alike, or both go on forever and perform the same
events. -/
def BehavesAlike (oracle : Oracle) (code : List Instruction) (lifted program : Program)
    (state : CodeState) (other : ProgramState) : Prop :=
  EndsAlike oracle code lifted program state other ∨
    ((codeMachine oracle code).Diverges state ∧ (programMachine oracle program).Diverges other ∧
      ∀ events, (codeMachine oracle code).Performs state events ↔
        (programMachine oracle program).Performs other events)

theorem EndsAlike.of_reaches {oracle : Oracle} {code : List Instruction} {lifted program : Program}
    {state next : CodeState} {other next' : ProgramState}
    (reaches : (codeMachine oracle code).Reaches state next)
    (reaches' : (programMachine oracle program).Reaches other next')
    (ends : EndsAlike oracle code lifted program next next') :
    EndsAlike oracle code lifted program state other := by
  cases ends with
  | halts regular codeHalts programHalts =>
      exact .halts regular (reaches.halts codeHalts) (reaches'.halts programHalts)
  | departs later takes blind programHalts =>
      exact .departs (reaches.trans later) takes blind (reaches'.halts programHalts)

/-- Both machines are at the start of a block, and the routine has been passed the top of
the stack. -/
structure Meets (code : List Instruction) (routines : List Routine) (index : Nat) (block : Block)
    (routine : Routine) (args : List Word) (state : CodeState) (other : ProgramState) : Prop where
  listed : (Block.split code)[index]? = some block
  found : routines[index]? = some routine
  rest : state.rest = ((Block.split code).drop index).flatMap Block.instructions
  enters : other = .enter (routine.chained routines[index + 1]?) args state.events
  enough : routine.arity ≤ state.stack.length
  passed : ∀ slot < routine.arity, args[slot]? = state.stack[slot]?

/-- Both machines are at the start of some block. -/
def Meet (code : List Instruction) (routines : List Routine) (state : CodeState)
    (other : ProgramState) : Prop :=
  ∃ index block routine args, Meets code routines index block routine args state other

section

variable {oracle : Oracle} {code : List Instruction} {routines : List Routine}
variable {lifted : Program} {index : Nat} {block : Block} {routine : Routine}
variable {args : List Word} {state : CodeState} {other : ProgramState}

/-- The values on top of a stack are enough for a routine that takes no more of them. -/
theorem meets_of_enters {items below : List Word} {events : List Event}
    (listed : (Block.split code)[index]? = some block)
    (found : routines[index]? = some routine) (fits : routine.arity ≤ items.length) :
    Meets code routines index block routine (items.take routine.arity)
      ⟨((Block.split code).drop index).flatMap Block.instructions, items ++ below, events⟩
      (.enter (routine.chained routines[index + 1]?) (items.take routine.arity) events) where
  listed := listed
  found := found
  rest := rfl
  enters := rfl
  enough := by
    rw [List.length_append]
    omega
  passed := by
    intro slot inside
    rw [List.getElem?_take_of_lt inside, List.getElem?_append_left (by omega)]

/-- At an exit both machines end alike, or enter the same block. -/
theorem ends_or_meets_of_exit {base : List Word} {exit exit' : Observation}
    (realizes : Block.Realizes lifted (Block.split code) routines)
    (laid : CodeState.Laid code) (resolves : Observation.Resolves lifted exit exit')
    (leaves : CodeState.Leaves oracle code base state exit)
    (leaves' : ProgramState.step oracle ⟨Routine.chain routines⟩ other =
      ProgramState.leave ⟨Routine.chain routines⟩ state.events exit') :
    EndsAlike oracle code lifted ⟨Routine.chain routines⟩ state other ∨
      ∃ next next', CodeState.step oracle code state = .ok next ∧
        ProgramState.step oracle ⟨Routine.chain routines⟩ other = .ok next' ∧
        Meet code routines next next' := by
  cases leaves with
  | ends stops =>
      cases resolves
      exact .inl (.halts rfl (Machine.halts_of_step stops) (Machine.halts_of_step leaves'))
  | jumps taken goes =>
      cases resolves with
      | stays offset condition items known => exact absurd rfl (known _)
      | leaves _ _ _ blind =>
          exact .inl (.departs (.refl _ _) taken blind (Machine.halts_of_step leaves'))
      | faults offset condition items missing =>
          have nowhere := laid.enter?_eq_none (realizes.missing _ missing)
          simp only [CodeState.jump, nowhere] at goes
          exact .inl (.halts rfl (Machine.halts_of_step goes) (Machine.halts_of_step leaves'))
      | enters offset condition found fits =>
          obtain ⟨index, block, routine, listed, start, foundRoutine, rfl⟩ :=
            realizes.entered _ _ found
          have somewhere := laid.enter?_eq_some listed
          rw [start] at somewhere
          simp only [CodeState.jump, somewhere] at goes
          have named : (Program.mk (Routine.chain routines)).named? routine.entry.name = _ :=
            realizes.named?_eq foundRoutine
          simp only [ProgramState.leave, named] at leaves'
          exact .inr ⟨_, _, goes, leaves', index, block, routine, _,
            meets_of_enters listed foundRoutine fits⟩

/-- After a block without an exit both machines complete, or go on to the next block. -/
theorem ends_or_meets_of_end {items below : List Word} {frame : Frame}
    (realizes : Block.Realizes lifted (Block.split code) routines)
    (found : routines[index]? = some routine) (falls : routine.fallsThrough = true)
    (rest : state.rest = ((Block.split code).drop (index + 1)).flatMap Block.instructions)
    (stack : state.stack = items ++ below)
    (returns : frame.values? routine.returns = some items) :
    EndsAlike oracle code lifted ⟨Routine.chain routines⟩ state
        ⟨routine.onward routines[index + 1]?, frame, state.events⟩ ∨
      index + 1 < (Block.split code).length ∧
      ∃ next, ProgramState.step oracle ⟨Routine.chain routines⟩
          ⟨routine.onward routines[index + 1]?, frame, state.events⟩ = .ok next ∧
        Meet code routines state next := by
  cases foundNext : routines[index + 1]? with
  | none =>
      have last : (Block.split code).drop (index + 1) = [] := by
        rw [List.drop_eq_nil_iff, ← realizes.length]
        exact List.getElem?_eq_none_iff.mp foundNext
      rw [last] at rest
      have stops : (codeMachine oracle code).step state = .error ⟨state.events, .completed⟩ := by
        simp [codeMachine, CodeState.step, rest]
      have stops' : (programMachine oracle ⟨Routine.chain routines⟩).step
          ⟨routine.onward none, frame, state.events⟩ = .error ⟨state.events, .completed⟩ := by
        simp [programMachine, ProgramState.step, Routine.onward]
      exact .inl (.halts rfl (Machine.halts_of_step stops) (Machine.halts_of_step stops'))
  | some next =>
      have inside : index + 1 < (Block.split code).length := by
        rw [← realizes.length]
        exact (List.getElem?_eq_some_iff.mp foundNext).1
      have fits : next.arity ≤ items.length := by
        rw [Frame.length_of_values? returns]
        exact realizes.enough index routine next found foundNext falls
      have meets : Meets code routines (index + 1) _ next _ ⟨_, items ++ below, state.events⟩ _ :=
        meets_of_enters (List.getElem?_eq_getElem inside) foundNext fits
      rw [← rest, ← stack] at meets
      refine .inr ⟨inside, _, ?_, _, _, _, _, meets⟩
      simp [ProgramState.step, Routine.onward, falls, Routine.jumpTo, ProgramState.execute,
        Frame.condition?, ProgramState.jump, realizes.named?_eq foundNext,
        Frame.values?_take returns]

/-- What the block at which both machines stand does on the words of the stack. -/
def liveRun (oracle : Oracle) (block : Block) (state : CodeState) : Live :=
  Live.run (oracle.after state.events) (argumentsOf state.stack) {} block.instructions

/-- The code machine runs through the block. -/
theorem Meets.code_run (oracle : Oracle)
    (meets : Meets code routines index block routine args state other)
    (implements : Block.Implements lifted index block routine)
    (plain : ∀ instruction ∈ code, instruction.Plain) :
    (Observation.firstExit? (liveRun oracle block state).seen = none ∧
      ∃ final, (codeMachine oracle code).run block.instructions.length state = .ok final ∧
        final.rest = ((Block.split code).drop (index + 1)).flatMap Block.instructions ∧
        CodeState.Holds state.events state.stack (liveRun oracle block state) final) ∨
    ∃ before exit final,
      Observation.firstExit? (liveRun oracle block state).seen = some (before, exit) ∧
      (codeMachine oracle code).Reaches state final ∧
      final.events = state.events ++ before.filterMap Observation.event? ∧
      CodeState.Leaves oracle code state.stack final exit := by
  have rest : state.rest = block.instructions ++
      ((Block.split code).drop (index + 1)).flatMap Block.instructions := by
    rw [meets.rest, Block.drop_eq_cons meets.listed, List.flatMap_cons]
  have start : CodeState.Holds state.events state.stack {} state := ⟨rfl, by simp⟩
  have enough := meets.enough
  rw [implements.arity (oracle.after state.events) (argumentsOf state.stack)] at enough
  obtain ⟨seen, equal, runs⟩ := start.run code rest
    (Block.forall_mem_split plain block (List.mem_of_getElem? meets.listed)) enough
  rw [List.nil_append] at equal
  subst equal
  exact runs

/-- The program machine runs through the routine. -/
theorem Meets.program_run (oracle : Oracle) (program : Program)
    (meets : Meets code routines index block routine args state other)
    (implements : Block.Implements lifted index block routine) :
    ∃ seen, List.Forall₂ (Observation.Resolves lifted) (liveRun oracle block state).seen seen ∧
      ((Observation.firstExit? seen = none ∧ routine.fallsThrough = true ∧
        ∃ frame : Frame, frame.values? routine.returns = some (liveRun oracle block state).items ∧
          (programMachine oracle program).Reaches other
            ⟨routine.onward routines[index + 1]?, frame,
              state.events ++ seen.filterMap Observation.event?⟩) ∨
      ∃ before exit final, Observation.firstExit? seen = some (before, exit) ∧
        (programMachine oracle program).Reaches other final ∧
        ProgramState.step oracle program final = ProgramState.leave program
          (state.events ++ before.filterMap Observation.event?) exit) := by
  have supplied : ∀ slot < routine.arity, args[slot]? = some (argumentsOf state.stack slot) := by
    intro slot inside
    rw [meets.passed slot inside]
    exact getElem?_eq_argumentsOf (Nat.lt_of_lt_of_le inside meets.enough)
  obtain ⟨seen, means, resolves⟩ := implements.meaning oracle state.events
    (argumentsOf state.stack) (fun slot => args[slot]?) supplied
  rw [Routine.meaning?, Routine.runIn?_eq_some_iff] at means
  obtain ⟨after, performs, returns, rfl⟩ := means
  have start : other = ⟨routine.body ++ routine.onward routines[index + 1]?,
      ⟨fun slot => args[slot]?, fun _ => none⟩, state.events⟩ := by
    rw [meets.enters, ProgramState.enter, Routine.body_chained]
  obtain ⟨new, grown, runs⟩ := ProgramState.run_of_performAll program
    (routine.onward routines[index + 1]?) implements.proper performs
  rw [List.nil_append] at grown
  subst grown
  simp only [List.filterMap_nil, List.append_nil, List.nil_append, ← start] at runs
  refine ⟨_, resolves, ?_⟩
  rcases runs with ⟨none, reaches⟩ | exits
  · refine .inl ⟨none, ?_, after.frame, returns, reaches⟩
    -- A routine that does not fall through would show an exit.
    by_contra ends
    rw [Bool.not_eq_true] at ends
    obtain ⟨exit, member, exits⟩ := Routine.exists_exit implements.proper ends performs
    exact Observation.firstExit?_ne_none member exits none
  · exact .inr exits

/-- From the start of a block both machines end alike, or come to the start of a block
again. -/
theorem Meets.round (oracle : Oracle)
    (realizes : Block.Realizes lifted (Block.split code) routines)
    (laid : CodeState.Laid code) (plain : ∀ instruction ∈ code, instruction.Plain)
    (meets : Meets code routines index block routine args state other) :
    EndsAlike oracle code lifted ⟨Routine.chain routines⟩ state other ∨
      Machine.Advance (codeMachine oracle code) (programMachine oracle ⟨Routine.chain routines⟩)
        (Meet code routines) state other := by
  obtain ⟨own, foundOwn, implements⟩ := realizes.implements index block meets.listed
  cases meets.found.symm.trans foundOwn
  obtain ⟨seen, resolves, programRuns⟩ :=
    meets.program_run oracle ⟨Routine.chain routines⟩ implements
  have exits := Observation.rel_firstExit? resolves
  rcases meets.code_run oracle implements plain with
    ⟨none, final, ran, rest, holds⟩ | ⟨before, exit, final, found, reaches, events, leaves⟩
  · rw [none] at exits
    rcases programRuns with ⟨_, falls, frame, returns, count, ran'⟩ | ⟨_, _, _, found, _⟩
    · rw [Observation.filterMap_event?_of_resolves resolves, ← holds.events] at ran'
      rcases ends_or_meets_of_end realizes meets.found falls rest holds.stack returns with
        ends | ⟨inside, next, stepped, meet⟩
      · exact .inl (ends.of_reaches ⟨_, ran⟩ ⟨_, ran'⟩)
      · have nonempty : block.instructions ≠ [] := by
          refine Block.instructions_ne_nil ?_ block (List.mem_of_getElem? meets.listed)
          rintro rfl
          simp [Block.split] at inside
        obtain ⟨first, others, equal⟩ := List.exists_cons_of_ne_nil nonempty
        rw [equal, List.length_cons] at ran
        exact .inr ⟨_, count, final, next, ran, Machine.run_then_step ran' stepped, meet⟩
    · rw [found] at exits
      cases exits
  · rw [found] at exits
    obtain ⟨count, ran⟩ := reaches
    rcases programRuns with ⟨none, _⟩ | ⟨before', exit', final', found', ⟨count', ran'⟩, leaves'⟩
    · rw [none] at exits
      cases exits
    · rw [found'] at exits
      cases exits with
      | some splits =>
          rw [Observation.filterMap_event?_of_resolves splits.1, ← events] at leaves'
          rcases ends_or_meets_of_exit realizes laid splits.2 leaves leaves' with
            ends | ⟨next, next', stepped, stepped', meet⟩
          · exact .inl (ends.of_reaches ⟨count, ran⟩ ⟨count', ran'⟩)
          · exact .inr ⟨count, count', next, next', Machine.run_then_step ran stepped,
              Machine.run_then_step ran' stepped', meet⟩

end

theorem Bytecode.laid_decode (code : Bytecode) : CodeState.Laid code.decode :=
  ⟨pairwise_offset_decode code, fun _ _ => offset_head_decode⟩

/-- The program of code that links without warnings does what the code does, from any stack
that holds the arguments of the main routine, and whatever opcodes leave. -/
theorem program_behaves_like_code (code : Bytecode) :
    ∃ lifted linked, Program.ofBlocks (Block.split code.decode) = .ok lifted ∧
      decompileBlocks (Block.split code.decode) = .ok linked ∧
      (linked.warnings = [] →
        ∃ main, linked.program.named? "main" = some main ∧
          ∀ (oracle : Oracle) (stack : List Word), main.arity ≤ stack.length →
            BehavesAlike oracle code.decode lifted linked.program ⟨code.decode, stack, []⟩
              (.enter main stack [])) := by
  have plain : ∀ instruction ∈ code.decode, instruction.Plain := Bytecode.plain_of_mem_decode
  have standard : ∀ block ∈ Block.split code.decode, ∀ instruction ∈ block.instructions,
      instruction.Standard := Block.forall_mem_split Bytecode.standard_of_mem_decode
  have laid := code.laid_decode
  obtain ⟨numbered, links, keeps⟩ := (Block.scoped_routines standard).exists_link
  refine ⟨_, _, Block.ofBlocks_eq standard, Block.decompileBlocks_eq standard links, ?_⟩
  intro quiet
  obtain ⟨quietJumps, quietChain⟩ := List.append_eq_nil_iff.mp quiet
  have realizes := Block.realizes_of_links standard (Block.pairwise_offset_split laid.ordered)
    (keeps quietJumps) quietChain
  obtain ⟨first, rest, split, _⟩ := Block.exists_split_eq_cons code.decode
  have listed : (Block.split code.decode)[0]? = some first := by rw [split]; rfl
  obtain ⟨routine, found, implements⟩ := realizes.implements 0 first listed
  have named := realizes.named?_eq found
  rw [implements.name] at named
  refine ⟨_, named, ?_⟩
  intro oracle stack enough
  rw [Routine.arity_chained] at enough
  have start : Meet code.decode numbered ⟨code.decode, stack, []⟩
      (.enter (routine.chained numbered[0 + 1]?) stack []) := by
    refine ⟨0, first, routine, stack, listed, found, ?_, rfl, enough, fun _ _ => rfl⟩
    rw [List.drop_zero, Block.flatMap_split]
  refine Machine.ends_or_diverges (CodeState.remembers_codeMachine oracle code.decode)
    (ProgramState.remembers_programMachine oracle _) ?_ ?_ ?_ start
  · rintro state other ⟨index, block, routine, args, meets⟩
    rw [meets.enters]
    rfl
  · intro state other next next' reaches reaches' ends
    exact ends.of_reaches reaches reaches'
  · rintro state other ⟨index, block, routine, args, meets⟩
    exact meets.round oracle realizes laid plain

/-- A loop on the top of the stack. -/
theorem program_behaves_like_code_loop :
    ∃ lifted linked main,
      Program.ofBlocks (Block.split (Bytecode.decode [0x5b, 0x80, 0x60, 0x00, 0x57, 0x00])) =
        .ok lifted ∧
      decompileBlocks (Block.split (Bytecode.decode [0x5b, 0x80, 0x60, 0x00, 0x57, 0x00])) =
        .ok linked ∧
      linked.warnings = [] ∧ linked.program.named? "main" = some main ∧ main.arity = 1 ∧
      BehavesAlike (fun _ _ _ => 0) (Bytecode.decode [0x5b, 0x80, 0x60, 0x00, 0x57, 0x00])
        lifted linked.program ⟨Bytecode.decode [0x5b, 0x80, 0x60, 0x00, 0x57, 0x00], [1], []⟩
        (.enter main [1] []) := by
  obtain ⟨lifted, linked, lifts, decompiles, behaves⟩ :=
    program_behaves_like_code [0x5b, 0x80, 0x60, 0x00, 0x57, 0x00]
  have computed : (decompileBlocks (Block.split
      (Bytecode.decode [0x5b, 0x80, 0x60, 0x00, 0x57, 0x00]))).toOption.map (fun linked =>
        (linked.warnings, (linked.program.named? "main").map Routine.arity)) =
      some ([], some 1) := by
    decide +kernel
  rw [decompiles] at computed
  obtain ⟨quiet, arity⟩ := Prod.mk.inj (Option.some.inj computed)
  obtain ⟨main, named, runs⟩ := behaves quiet
  rw [named] at arity
  have one : main.arity = 1 := Option.some.inj arity
  exact ⟨lifted, linked, main, lifts, decompiles, quiet, named, one,
    runs _ [1] (by simp [one])⟩

end EvmLift
