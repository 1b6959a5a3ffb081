import EvmLift.Block
import EvmLift.Pseudocode.Routine
import EvmLift.Symbolic.Stack

/-!
# Symbolic execution of blocks

Running a block on the symbolic stack turns each instruction into a statement whose
operands are the values that it takes and whose targets are fresh variables. Shuffles
only move values and leave no statement. Beside the stack, execution sums up the
stack effect that the opcodes declare; at the end of the block both must agree on
the number of live values.
-/

namespace EvmLift

/-- The next unused names. One supply serves all blocks of a program. -/
structure Supply where
  nextVar : Nat := 0
  nextRoutine : Nat := 0
  deriving Repr, DecidableEq

namespace Supply

/-- A fresh variable. -/
def freshVar (supply : Supply) : Value × Supply :=
  (.var supply.nextVar, { supply with nextVar := supply.nextVar + 1 })

/-- The name of the routine with an index: the first one is the main routine. -/
def routineName (index : Nat) : String :=
  if index = 0 then "main" else s!"func{index}"

/-- A fresh routine name. -/
def freshRoutine (supply : Supply) : String × Supply :=
  (routineName supply.nextRoutine, { supply with nextRoutine := supply.nextRoutine + 1 })

end Supply

/-- Why a block is no routine. Neither happens to code that uses the standard table
of opcodes. -/
inductive LiftError where
  /-- The declared effects take more than the block and its parameters hold. -/
  | negativeDepth (block : Nat) (depth : Int)
  /-- The declared effects do not agree with the live values. -/
  | imbalance (block : Nat) (expected actual : Nat)
  deriving Repr, DecidableEq

namespace LiftError

/-- The wording of an error. -/
def message : LiftError → String
  | .negativeDepth block depth =>
      s!"negative stack depth {depth} at end of block " ++ Hex.literal block
  | .imbalance block expected actual =>
      "block " ++ Hex.literal block ++ s!": {actual} live stack values, expected {expected}"

end LiftError

/-- The state of a block's symbolic execution. -/
structure Execution where
  stack : SymbolicStack := {}
  /-- The sum of the declared stack effects. -/
  depth : Int := 0
  /-- The next unused variable. -/
  nextVar : Nat
  deriving Repr, DecidableEq

namespace Execution

/-- The variables that receive the results of an opcode. -/
def targets (state : Execution) (count : Nat) : List Value :=
  (List.range' state.nextVar count).map Value.var

/-- The statement of an instruction on its operands. A jump passes on all live
values and leaves nothing. Any other instruction leaves fresh variables, the last one
on top. -/
def emit (state : Execution) (instruction : Instruction) (operands : List Value) :
    Statement × Execution :=
  let op := instruction.op
  let callee := (operands.head?.map Callee.computed).getD .fault
  let after := { state with depth := state.depth + op.pushes }
  match op.kind with
  | .jump => (.jump (some instruction.offset) callee none state.stack.items, after)
  | .jumpIf => (.jump (some instruction.offset) callee operands[1]? state.stack.items, after)
  | _ =>
      let targets := state.targets op.pushes
      (.assign instruction.offset targets op operands,
        { after with
          stack := state.stack.pushAll targets.reverse
          nextVar := state.nextVar + op.pushes })

/-- Execute one instruction. Constants that it carries were never on the stack and do
not count against the depth. -/
def step (state : Execution) (instruction : Instruction) : Option Statement × Execution :=
  let op := instruction.op
  if op.isJumpDest then (none, state)
  else
    match instruction.constants with
    | some words =>
        let (statement, after) := state.emit instruction (words.map Value.const)
        (some statement, after)
    | none =>
        match op.kind with
        | .dup =>
            (none, { state with stack := state.stack.dup op.pops, depth := state.depth + op.effect })
        | .swap =>
            (none,
              { state with
                stack := state.stack.swap (op.pops - 1)
                depth := state.depth + op.effect })
        | _ =>
            let (operands, stack) := state.stack.popMany op.pops
            let popped := { state with stack, depth := state.depth - op.pops }
            let (statement, after) := popped.emit instruction operands
            (some statement, after)

/-- Execute instructions in order. -/
def run (state : Execution) : List Instruction → List Statement × Execution
  | [] => ([], state)
  | instruction :: rest =>
      let (statement, next) := state.step instruction
      let (statements, final) := next.run rest
      (statement.toList ++ statements, final)

end Execution

namespace Block

/-- The routine of a block, and the names that are left. A block that is no routine
uses up its names as well. -/
def lift (block : Block) (supply : Supply) : Except LiftError Routine × Supply :=
  let (name, named) := supply.freshRoutine
  let (body, final) := Execution.run { nextVar := named.nextVar } block.instructions
  let arity := final.stack.params
  let live := final.stack.items.length
  let remaining := final.depth + arity
  let routine :=
    if remaining < 0 then .error (.negativeDepth block.offset remaining)
    else if remaining ≠ live then .error (.imbalance block.offset remaining.toNat live)
    else .ok { name, offset := block.offset, arity, body, returns := final.stack.items }
  (routine, { named with nextVar := final.nextVar })

/-- The routines of blocks in order, up to the first that is none. -/
def liftAll (supply : Supply) : List Block → Except LiftError (List Routine)
  | [] => .ok []
  | block :: rest =>
      match block.lift supply with
      | (.error error, _) => .error error
      | (.ok routine, next) => (liftAll next rest).map (routine :: ·)

end Block

namespace Program

/-- The routines of blocks, each on its own and not yet linked. -/
def ofBlocks (blocks : List Block) : Except LiftError Program :=
  (Block.liftAll {} blocks).map Program.mk

end Program

end EvmLift
