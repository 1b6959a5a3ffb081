import EvmLift.Pseudocode.Routine
import EvmLift.Text.Enumeration
import EvmLift.Text.Paint

/-!
# The pseudocode listing

One definition for each routine, with its statements indented below it. Opcodes with
a sign are written between their operands, all others as calls.
-/

namespace EvmLift

namespace Value

/-- Values with commas between them. -/
def listing (values : List Value) : String :=
  Text.commaSeparated (values.map text)

end Value

namespace Statement

/-- The right side of an assignment. -/
def expression (op : Opcode) (operands : List Value) : String :=
  let call := op.mnemonic ++ "(" ++ Value.listing operands ++ ")"
  match op.symbol, operands with
  | _, [value] => if op.isPush then value.text else call
  | some symbol, [left, right] => left.text ++ " " ++ symbol ++ " " ++ right.text
  | _, _ => call

/-- The jump without its condition. -/
def call (color : Bool) (callee : Callee) (args : List Value) : String :=
  match callee with
  | .routine name => name ++ "(" ++ Value.listing args ++ ")"
  | .fault => Paint.red.apply color "throw"
  | .computed value => value.text ++ "(" ++ Value.listing args ++ ")"

/-- A statement on a line. -/
def listing (color : Bool) : Statement → String
  | .assign _ [] op operands => expression op operands
  | .assign _ targets op operands =>
      Value.listing targets ++ " = " ++ expression op operands
  | .jump _ callee none args => call color callee args
  | .jump _ callee (some condition) args =>
      Paint.blue.apply color "if" ++ " " ++ condition.text ++ ": " ++ call color callee args

end Statement

namespace Routine

/-- The first line of a routine. -/
def header (color : Bool) (routine : Routine) : String :=
  Paint.blue.apply color "def" ++ " " ++ routine.name ++
    "(" ++ Text.commaSeparated routine.params ++ "):"

/-- The lines of the body, one of which there always is. -/
def bodyLines (color : Bool) (routine : Routine) : List String :=
  match routine.body with
  | [] => ["pass"]
  | body => body.map (Statement.listing color)

/-- A routine as text. -/
def listing (color : Bool) (routine : Routine) : String :=
  String.intercalate "\n"
    (routine.header color :: (routine.bodyLines color).map fun line => "    " ++ line)

end Routine

namespace Program

/-- A program as text, with an empty line between routines. -/
def listing (color : Bool) (program : Program) : String :=
  String.intercalate "\n\n" (program.routines.map (Routine.listing color))

end Program

end EvmLift
