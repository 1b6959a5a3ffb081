import EvmLift.Proofs.Machine.Basic

/-!
# The code machine

Instructions run on a stack of words. Jumps go to offset zero or to a jump destination,
and fault anywhere else.
-/

namespace EvmLift

/-- A state of the code machine. -/
structure CodeState where
  /-- The instructions from the program counter on. -/
  rest : List Instruction
  /-- The stack, top first. -/
  stack : List Word
  events : List Event := []
  deriving Repr, DecidableEq

namespace CodeState

/-- The instructions from an offset on, if it may be jumped to. -/
def enter? (code : List Instruction) (offset : Nat) : Option (List Instruction) :=
  if offset = 0 then some code
  else
    match code.dropWhile (fun instruction =>
        !(instruction.op.isJumpDest && instruction.offset = offset)) with
    | [] => none
    | rest => some rest

/-- Jump to the offset that a word says. -/
def jump (code : List Instruction) (state : CodeState) (target : Word) :
    Except Halt CodeState :=
  match enter? code target.toNat with
  | some rest => .ok { state with rest }
  | none => .error ⟨state.events, .faulted⟩

/-- Execute an instruction, given the state after it has been fetched. -/
def execute (oracle : Oracle) (code : List Instruction) (state : CodeState)
    (instruction : Instruction) : Except Halt CodeState :=
  let op := instruction.op
  let underflow : Except Halt CodeState := .error ⟨state.events, .underflow⟩
  match op.kind with
  | .jumpDest => .ok state
  | .push => .ok { state with stack := instruction.constants.getD [] ++ state.stack }
  | .dup =>
      match state.stack[op.pops - 1]? with
      | some copied => .ok { state with stack := copied :: state.stack }
      | none => underflow
  | .swap =>
      match state.stack[0]?, state.stack[op.pops - 1]? with
      | some top, some deep =>
          .ok { state with stack := (state.stack.set 0 deep).set (op.pops - 1) top }
      | _, _ => underflow
  | .jump =>
      match state.stack with
      | target :: below => jump code { state with stack := below } target
      | _ => underflow
  | .jumpIf =>
      match state.stack with
      | target :: condition :: below =>
          if condition = 0 then .ok { state with stack := below }
          else jump code { state with stack := below } target
      | _ => underflow
  | .plain | .fault =>
      if state.stack.length < op.pops then underflow
      else
        let event : Event := ⟨instruction.offset, op, state.stack.take op.pops⟩
        let results := event.results (oracle state.events event)
        let events := state.events ++ [event]
        if op.terminates then .error ⟨events, .terminated⟩
        else .ok { state with stack := results.reverse ++ state.stack.drop op.pops, events }

/-- Fetch an instruction and execute it. -/
def step (oracle : Oracle) (code : List Instruction) (state : CodeState) :
    Except Halt CodeState :=
  match state.rest with
  | [] => .error ⟨state.events, .completed⟩
  | instruction :: rest => execute oracle code { state with rest } instruction

/-- The offset and the target of the jump that is taken next, if one is. -/
def taken? (state : CodeState) : Option (Nat × Word) :=
  match state.rest, state.stack with
  | instruction :: _, target :: below =>
      match instruction.op.kind, below with
      | .jump, _ => some (instruction.offset, target)
      | .jumpIf, condition :: _ => if condition = 0 then none else some (instruction.offset, target)
      | _, _ => none
  | _, _ => none

end CodeState

/-- The machine that runs code. -/
def codeMachine (oracle : Oracle) (code : List Instruction) : Machine CodeState :=
  ⟨CodeState.step oracle code, CodeState.events⟩

end EvmLift
