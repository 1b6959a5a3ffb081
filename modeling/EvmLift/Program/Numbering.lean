import EvmLift.Pseudocode.Routine
import Std.Data.TreeMap

/-!
# Numbering of variables

Variables are numbered from one in the order of their assignments, over the whole
program. A read gets the number of the latest assignment before it. Reading a
variable that nothing has assigned is an error.
-/

namespace EvmLift

/-- A variable that is read before anything assigns it. -/
structure UndefinedVariable where
  routine : String
  id : Nat
  deriving Repr, DecidableEq

namespace UndefinedVariable

/-- The wording of the error. -/
def message (error : UndefinedVariable) : String :=
  s!"var{error.id} referenced in {error.routine} before any definition"

end UndefinedVariable

/-- The numbers given so far. -/
structure Numbering where
  /-- The number of the latest assignment to a variable. -/
  current : Std.TreeMap Nat Nat := {}
  next : Nat := 1

namespace Numbering

/-- The number of a value that the named routine reads. -/
def read (numbering : Numbering) (routine : String) : Value → Except UndefinedVariable Value
  | .var id =>
      match numbering.current[id]? with
      | some number => .ok (.var number)
      | none => .error ⟨routine, id⟩
  | value => .ok value

/-- Read values in order. -/
def readAll (numbering : Numbering) (routine : String) :
    List Value → Except UndefinedVariable (List Value)
  | [] => .ok []
  | value :: rest => do
      let first ← numbering.read routine value
      let others ← numbering.readAll routine rest
      return first :: others

/-- Give the next number to an assigned variable. -/
def assign (numbering : Numbering) : Value → Value × Numbering
  | .var id =>
      (.var numbering.next,
        ⟨numbering.current.insert id numbering.next, numbering.next + 1⟩)
  | value => (value, numbering)

/-- Assign values in order. -/
def assignAll (numbering : Numbering) : List Value → List Value × Numbering
  | [] => ([], numbering)
  | value :: rest =>
      let (first, next) := numbering.assign value
      let (others, final) := next.assignAll rest
      (first :: others, final)

/-- Number the value that a jump goes by. -/
def callee (numbering : Numbering) (routine : String) : Callee → Except UndefinedVariable Callee
  | .computed value => do return .computed (← numbering.read routine value)
  | callee => .ok callee

/-- Number a condition. -/
def condition (numbering : Numbering) (routine : String) :
    Option Value → Except UndefinedVariable (Option Value)
  | some value => do return some (← numbering.read routine value)
  | none => .ok none

/-- Number a statement: what it reads first, then what it assigns. -/
def statement (numbering : Numbering) (routine : String) :
    Statement → Except UndefinedVariable (Statement × Numbering)
  | .assign offset targets op operands => do
      let operands ← numbering.readAll routine operands
      let (targets, next) := numbering.assignAll targets
      return (.assign offset targets op operands, next)
  | .jump offset callee condition args => do
      let callee ← numbering.callee routine callee
      let condition ← numbering.condition routine condition
      let args ← numbering.readAll routine args
      return (.jump offset callee condition args, numbering)

/-- Number statements in order. -/
def body (numbering : Numbering) (routine : String) :
    List Statement → Except UndefinedVariable (List Statement × Numbering)
  | [] => .ok ([], numbering)
  | first :: rest => do
      let (first, next) ← numbering.statement routine first
      let (others, final) ← next.body routine rest
      return (first :: others, final)

/-- Number routines in order, each with its returned values after its body. -/
def routines (numbering : Numbering) : List Routine → Except UndefinedVariable (List Routine)
  | [] => .ok []
  | routine :: rest => do
      let (body, next) ← numbering.body routine.name routine.body
      let returns ← next.readAll routine.name routine.returns
      let others ← next.routines rest
      return { routine with body, returns } :: others

end Numbering

namespace Program

/-- Number the variables of a program. -/
def renumber (program : Program) : Except UndefinedVariable Program :=
  (Numbering.routines {} program.routines).map Program.mk

end Program

end EvmLift
