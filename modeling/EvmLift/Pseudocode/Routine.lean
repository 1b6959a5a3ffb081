import EvmLift.Pseudocode.Statement

/-!
# Routines and programs

Each block becomes a routine. It takes the stack slots that it reads below its own
values as parameters, and leaves its last live values for whatever comes after it. A
program is the list of its routines in the order of their offsets.
-/

namespace EvmLift

/-- A block as pseudocode. -/
structure Routine where
  name : String
  /-- The offset at which the routine starts. -/
  offset : Nat
  /-- The number of parameters. -/
  arity : Nat
  body : List Statement
  /-- The live values at the end, top first. -/
  returns : List Value
  deriving Repr, DecidableEq

namespace Routine

/-- The names of the parameters. -/
def params (routine : Routine) : List String :=
  (List.range routine.arity).map fun index => (Value.param index).text

end Routine

/-- The routines of some code, in the order of their offsets. -/
structure Program where
  routines : List Routine
  deriving Repr, DecidableEq

namespace Program

/-- The routine that starts at an offset. -/
def atOffset? (program : Program) (offset : Nat) : Option Routine :=
  program.routines.find? fun routine => routine.offset = offset

/-- The first routine with a name. -/
def named? (program : Program) (name : String) : Option Routine :=
  program.routines.find? fun routine => routine.name = name

/-- The number of statements in all routines. -/
def statementCount (program : Program) : Nat :=
  (program.routines.flatMap Routine.body).length

end Program

end EvmLift
