import EvmLift.Pseudocode.Routine
import Std.Data.TreeMap
import Std.Data.TreeSet

/-!
# Inlining of constants

A variable that holds a pushed constant is replaced by the constant where a statement
computes or decides with it. Passed values and returned values keep the variable.
Afterwards the pushes whose variable nothing mentions are removed.
-/

namespace EvmLift

namespace Value

/-- Replace a variable by its constant, if it has one. -/
def inline (constant? : Nat → Option Word) : Value → Value
  | .var id =>
      match constant? id with
      | some word => .const word
      | none => .var id
  | value => value

end Value

namespace Callee

/-- Replace the variable that a jump goes by. -/
def inline (constant? : Nat → Option Word) : Callee → Callee
  | .computed value => .computed (value.inline constant?)
  | callee => callee

end Callee

namespace Statement

/-- The variable and the constant of a push. -/
def definition? : Statement → Option (Nat × Word)
  | .assign _ [.var id] op [.const word] => if op.isPush then some (id, word) else none
  | _ => none

/-- Replace variables in operands, jump targets and conditions. -/
def inline (constant? : Nat → Option Word) : Statement → Statement
  | .assign offset targets op operands =>
      .assign offset targets op (operands.map (Value.inline constant?))
  | .jump offset callee condition args =>
      .jump offset (callee.inline constant?) (condition.map (Value.inline constant?)) args

/-- Whether a statement is a push whose variable is not mentioned. -/
def isDead (mentioned : Nat → Bool) (statement : Statement) : Bool :=
  match statement.definition? with
  | some (id, _) => !mentioned id
  | none => false

end Statement

namespace Routine

/-- Replace variables throughout the body. -/
def inline (constant? : Nat → Option Word) (routine : Routine) : Routine :=
  { routine with body := routine.body.map (Statement.inline constant?) }

/-- The variables that the routine reads or returns. -/
def mentions (routine : Routine) : List Nat :=
  (routine.body.flatMap Statement.reads ++ routine.returns).filterMap Value.id?

/-- Remove the pushes whose variable is not mentioned. -/
def dropDead (mentioned : Nat → Bool) (routine : Routine) : Routine :=
  { routine with body := routine.body.filter fun statement => !statement.isDead mentioned }

end Routine

namespace Program

/-- The constants that variables hold. Of several pushes of one variable the last
counts. -/
def constants (program : Program) : Std.TreeMap Nat Word :=
  .ofList (program.routines.flatMap fun routine => routine.body.filterMap Statement.definition?)

/-- The variables that some routine mentions. -/
def mentions (program : Program) : Std.TreeSet Nat :=
  .ofList (program.routines.flatMap Routine.mentions)

/-- Replace variables by the constants that they hold. -/
def replaceConstants (program : Program) : Program :=
  let constants := program.constants
  ⟨program.routines.map (Routine.inline fun id => constants[id]?)⟩

/-- Remove the pushes whose variable no routine mentions. -/
def dropDead (program : Program) : Program :=
  let mentions := program.mentions
  ⟨program.routines.map (Routine.dropDead mentions.contains)⟩

/-- Move constants to where they are read, and drop the pushes this leaves without a
use. -/
def inlineConstants (program : Program) : Program :=
  program.replaceConstants.dropDead

/-- The number of pushes that inlining removes. -/
def removedPushes (program : Program) : Nat :=
  program.statementCount - program.inlineConstants.statementCount

end Program

end EvmLift
