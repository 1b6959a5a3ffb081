import EvmLift.Bytecode.Decoding

/-!
# Loaded code

An image is code together with its instructions and the offsets that may be jumped
to. Loading replaces the whole image, and a text that is not code leaves the image
as it is.
-/

namespace EvmLift

/-- Code that has been taken apart. -/
structure Image where
  code : Bytecode
  instructions : List Instruction
  /-- The offsets of jump destinations, ascending. -/
  destinations : List Nat
  deriving Repr, DecidableEq

namespace Image

/-- The image of no code. -/
def empty : Image :=
  ⟨[], [], []⟩

/-- The image of some code. -/
def ofBytecode (code : Bytecode) : Image :=
  let instructions := code.decode
  ⟨code, instructions,
    (instructions.filter fun instruction => instruction.op.isJumpDest).map (·.offset)⟩

/-- The image of the code that a text writes. -/
def ofHex (source : String) : Except HexError Image :=
  (Bytecode.ofHex source).map ofBytecode

/-- The image after loading a text. -/
def load (image : Image) (source : String) : Image :=
  match ofHex source with
  | .ok loaded => loaded
  | .error _ => image

end Image

end EvmLift
