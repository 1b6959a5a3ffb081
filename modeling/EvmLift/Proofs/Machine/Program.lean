import EvmLift.Proofs.Machine.Basic
import EvmLift.Proofs.Semantics.Frame

/-!
# The program machine

Statements run from top to bottom. A jump to a routine starts its body on the values
that are passed, and nothing else of the caller is left. A jump to a computed offset
leaves the program.
-/

namespace EvmLift

/-- A state of the program machine. -/
structure ProgramState where
  /-- The statements of the current routine that are still to run. -/
  rest : List Statement
  frame : Frame
  events : List Event := []

namespace ProgramState

/-- The start of a routine on passed values. -/
def enter (routine : Routine) (args : List Word) (events : List Event) : ProgramState :=
  ⟨routine.body, ⟨fun index => args[index]?, fun _ => none⟩, events⟩

/-- Take a jump. -/
def jump (program : Program) (state : ProgramState) (offset : Option Nat) (callee : Callee)
    (args : List Value) : Except Halt ProgramState :=
  match callee with
  | .fault => .error ⟨state.events, .faulted⟩
  | .computed value =>
      match state.frame.value? value with
      | some target => .error ⟨state.events, .departed offset target⟩
      | none => .error ⟨state.events, .undefined⟩
  | .routine name =>
      match program.named? name, state.frame.values? args with
      | some routine, some words => .ok (enter routine words state.events)
      | _, _ => .error ⟨state.events, .undefined⟩

/-- Execute a statement, given the state after it. -/
def execute (oracle : Oracle) (program : Program) (state : ProgramState) :
    Statement → Except Halt ProgramState
  | .assign offset targets op operands =>
      match state.frame.values? operands with
      | none => .error ⟨state.events, .undefined⟩
      | some words =>
          let event : Event := ⟨offset, op, words⟩
          let results := event.results (oracle state.events event)
          let events := if op.isPush then state.events else state.events ++ [event]
          if op.terminates then .error ⟨events, .terminated⟩
          else .ok { state with frame := state.frame.assign targets results, events }
  | .jump offset callee condition args =>
      match state.frame.condition? condition with
      | none => .error ⟨state.events, .undefined⟩
      | some condition =>
          if condition = some 0 then .ok state else jump program state offset callee args

/-- Execute the next statement. -/
def step (oracle : Oracle) (program : Program) (state : ProgramState) :
    Except Halt ProgramState :=
  match state.rest with
  | [] => .error ⟨state.events, .completed⟩
  | statement :: rest => execute oracle program { state with rest } statement

end ProgramState

/-- The machine that runs a program. -/
def programMachine (oracle : Oracle) (program : Program) : Machine ProgramState :=
  ⟨ProgramState.step oracle program, ProgramState.events⟩

end EvmLift
