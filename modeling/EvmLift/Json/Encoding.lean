import EvmLift.Json.Basic
import EvmLift.Pseudocode.Routine

/-!
# Programs as JSON

Values, statements, routines and programs as documents, with the fields of each
object in alphabetical order. Values can be read back.
-/

namespace EvmLift

namespace Value

/-- A value as a document. -/
def toJson : Value → Json
  | .const word => .object [("const", .string (Hex.literal word.toNat))]
  | .var id => .object [("var", .nat id)]
  | .param index => .object [("arg", .nat index)]

/-- A text without one mark of hexadecimal notation. -/
def dropMark : List Char → List Char
  | '0' :: 'x' :: rest => rest
  | text => text

/-- The word that a text writes. Up to two marks may stand in front of its at most 64
digits. -/
def wordOfText? (text : String) : Option Word :=
  let digits := dropMark (dropMark text.toList)
  if 64 < digits.length then none
  else (Hex.nat? digits).map (BitVec.ofNat 256)

/-- The index that a number writes. Indices fit in 64 bits. -/
def indexOfJson? : Json → Option Nat
  | .number (.ofNat index) 0 => if index < UInt64.size then some index else none
  | _ => none

/-- The value of a document, which is an object with one field. -/
def ofJson? : Json → Option Value
  | .object [("const", .string text)] => (wordOfText? text).map Value.const
  | .object [("var", number)] => (indexOfJson? number).map Value.var
  | .object [("arg", number)] => (indexOfJson? number).map Value.param
  | _ => none

/-- Values as a document. -/
def listToJson (values : List Value) : Json :=
  .array (values.map toJson)

end Value

namespace Callee

/-- Where a jump goes, as a document. -/
def toJson : Callee → Json
  | .routine name => .object [("function", .string name)]
  | .fault => .string "fault"
  | .computed value => .object [("value", value.toJson)]

end Callee

namespace Statement

/-- A statement as a document. -/
def toJson : Statement → Json
  | .assign offset targets op operands =>
      .object
        [("kind", .string "assign"), ("offset", .nat offset), ("op", .string op.mnemonic),
          ("operands", Value.listToJson operands), ("targets", Value.listToJson targets)]
  | .jump offset callee condition args =>
      .object
        [("args", Value.listToJson args),
          ("condition", (condition.map Value.toJson).getD .null),
          ("kind", .string "jump"),
          ("offset", (offset.map Json.nat).getD .null),
          ("target", callee.toJson)]

end Statement

namespace Routine

/-- A routine as a document. -/
def toJson (routine : Routine) : Json :=
  .object
    [("args_needed", .nat routine.arity),
      ("lines", .array (routine.body.map Statement.toJson)),
      ("name", .string routine.name),
      ("offset", .nat routine.offset),
      ("returns", Value.listToJson routine.returns)]

end Routine

namespace Program

/-- A program as a document. -/
def toJson (program : Program) : Json :=
  .object [("functions", .array (program.routines.map Routine.toJson))]

end Program

end EvmLift
