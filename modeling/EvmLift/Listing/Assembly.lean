import EvmLift.Block
import EvmLift.Text.Enumeration
import EvmLift.Text.Hex
import EvmLift.Text.Paint

/-!
# The assembly listing

One row for each instruction, in columns for offset, mnemonic and constants, under a
header for each block.
-/

namespace EvmLift

namespace Instruction

/-- The width of the column for offsets. -/
def offsetWidth : Nat := 8

/-- The width of the column for mnemonics. -/
def mnemonicWidth : Nat := 20

/-- The offset with at least four digits, at the right of its column. -/
def offsetColumn (instruction : Instruction) : String :=
  String.ofList ((Hex.padded 4 instruction.offset).toList.leftpad offsetWidth ' ')

/-- The mnemonic at the left of its column. -/
def mnemonicColumn (instruction : Instruction) : String :=
  String.ofList (instruction.op.mnemonic.toList.rightpad mnemonicWidth ' ')

/-- The constants behind the last bar. Without any, the row ends at the bar. -/
def constantsColumn (instruction : Instruction) : String :=
  match instruction.constants.getD [] with
  | [] => ""
  | words => " " ++ Text.commaSeparated (words.map fun word => Hex.literal word.toNat)

/-- The row of an instruction. -/
def row (color : Bool) (instruction : Instruction) : String :=
  "[" ++ Paint.gray.apply color instruction.offsetColumn ++ "] | " ++
    instruction.mnemonicColumn ++ " |" ++ instruction.constantsColumn

end Instruction

namespace Block

/-- The header of a block. -/
def header (color : Bool) (block : Block) : String :=
  Paint.green.apply color ("; block " ++ Hex.literal block.offset)

/-- The lines of a block, with an empty one at the end. -/
def lines (color : Bool) (block : Block) : List String :=
  block.header color :: (block.instructions.map (Instruction.row color) ++ [""])

/-- The assembly listing of blocks. -/
def listing (color : Bool) (blocks : List Block) : String :=
  String.intercalate "\n" (blocks.flatMap (lines color))

end Block

end EvmLift
