import EvmLift.Bytecode.Decoding
import EvmLift.Json.Encoding
import EvmLift.Listing.Assembly
import EvmLift.Listing.Pseudocode
import EvmLift.Program.Linking
import EvmLift.Simplification.Rounds
import EvmLift.Symbolic.Execution

/-!
# Decompilation

From the text of some code to a listing of it: the code is decoded, simplified if
asked for, cut into blocks, and, unless only an assembly listing is wanted, turned
into a linked program.
-/

namespace EvmLift

/-- What a decompilation shows. -/
inductive View where
  | pseudocode | assembly | json
  deriving Repr, DecidableEq

/-- How code is decompiled. -/
structure Options where
  view : View := .pseudocode
  color : Bool := true
  simplify : Bool := true
  deriving Repr, DecidableEq

/-- Why code cannot be decompiled. -/
inductive DecompileError where
  | hex (cause : HexError)
  | lift (cause : LiftError)
  | link (cause : UndefinedVariable)
  deriving Repr, DecidableEq

namespace DecompileError

/-- The part of the work that failed. -/
def context : DecompileError → String
  | .hex _ => "failed to load bytecode"
  | .lift _ => "stack reconstruction failed"
  | .link _ => "function resolution failed"

/-- What went wrong there. -/
def cause : DecompileError → String
  | .hex cause => cause.message
  | .lift cause => cause.message
  | .link cause => cause.message

/-- The wording of the error on one line. -/
def message (error : DecompileError) : String :=
  error.context ++ ": " ++ error.cause

end DecompileError

/-- The instructions of code, simplified if asked for. -/
def Options.instructions (options : Options) (code : Bytecode) : List Instruction :=
  if options.simplify then Instruction.simplify code.decode else code.decode

/-- The linked program of blocks. -/
def decompileBlocks (blocks : List Block) : Except DecompileError Linked :=
  match Program.ofBlocks blocks with
  | .error cause => .error (.lift cause)
  | .ok program =>
      match program.link with
      | .error cause => .error (.link cause)
      | .ok linked => .ok linked

/-- What comes of some code. -/
structure Decompilation where
  text : String
  blocks : List Block
  /-- The program; it has no routines if only an assembly listing was wanted. -/
  program : Program
  warnings : List Warning
  deriving Repr, DecidableEq

/-- Decompile the code that a text writes. -/
def decompile (options : Options) (source : String) : Except DecompileError Decompilation :=
  match Bytecode.ofHex source with
  | .error cause => .error (.hex cause)
  | .ok code =>
      let blocks := Block.split (options.instructions code)
      match options.view with
      | .assembly => .ok ⟨Block.listing options.color blocks, blocks, ⟨[]⟩, code.warnings⟩
      | .pseudocode =>
          (decompileBlocks blocks).map fun linked =>
            ⟨linked.program.listing options.color, blocks, linked.program,
              code.warnings ++ linked.warnings⟩
      | .json =>
          (decompileBlocks blocks).map fun linked =>
            ⟨linked.program.toJson.pretty, blocks, linked.program,
              code.warnings ++ linked.warnings⟩

end EvmLift
