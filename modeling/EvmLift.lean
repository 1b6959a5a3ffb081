import EvmLift.Word.Basic
import EvmLift.Word.Arithmetic
import EvmLift.Operator
import EvmLift.Fork
import EvmLift.Opcode.Basic
import EvmLift.Opcode.Table
import EvmLift.Text.Blank
import EvmLift.Text.Enumeration
import EvmLift.Text.Hex
import EvmLift.Text.Paint
import EvmLift.Warning
import EvmLift.Instruction
import EvmLift.Bytecode.Basic
import EvmLift.Bytecode.Decoding
import EvmLift.Bytecode.Image
import EvmLift.Simplification.Rule
import EvmLift.Simplification.Constants
import EvmLift.Simplification.Rounds
import EvmLift.Block
import EvmLift.Symbolic.Value
import EvmLift.Symbolic.Stack
import EvmLift.Symbolic.Execution
import EvmLift.Pseudocode.Statement
import EvmLift.Pseudocode.Routine
import EvmLift.Program.Inlining
import EvmLift.Program.Jumps
import EvmLift.Program.Numbering
import EvmLift.Program.Fallthrough
import EvmLift.Program.Linking
import EvmLift.Json.Basic
import EvmLift.Json.Encoding
import EvmLift.Listing.Assembly
import EvmLift.Listing.Pseudocode
import EvmLift.Decompilation
import EvmLift.Command.Request
import EvmLift.Command.Run
import EvmLift.Main
import EvmLift.Proofs.Standard
import EvmLift.Proofs.Blocks
import EvmLift.Proofs.Semantics.Observation
import EvmLift.Proofs.Semantics.Live
import EvmLift.Proofs.Lifting.Step
import EvmLift.Proofs.Lifting.Balance
import EvmLift.Proofs.Scope
import EvmLift.Proofs.Lifting.Scope
import EvmLift.Proofs.Linking.Lookup
import EvmLift.Proofs.Semantics.Frame
import EvmLift.Proofs.Linking.Inlining
import EvmLift.Proofs.Linking.Jumps
import EvmLift.Proofs.Linking.Numbering
import EvmLift.Proofs.Linking.Chain
import EvmLift.Proofs.Simplification.Firing
import EvmLift.Proofs.Failure
import EvmLift.Proofs.Lifting.Meaning
import EvmLift.Proofs.Lifting.Offsets
import EvmLift.Proofs.Machine.Basic
import EvmLift.Proofs.Machine.Code
import EvmLift.Proofs.Machine.Program
import EvmLift.Proofs.Machine.Simulation
import EvmLift.Proofs.Refinement.Entries
import EvmLift.Proofs.Refinement.Routines
import EvmLift.Proofs.Refinement.Stack
import EvmLift.Proofs.Refinement.Statements
import EvmLift.Proofs.Refinement.Program
import EvmLift.Proofs.Simplification.Blockwise
import EvmLift.Proofs.Simplification.Fusion
import EvmLift.Proofs.Simplification.Meaning
import EvmLift.Proofs.Encoding
import EvmLift.Proofs.Destinations
import EvmLift.Proofs.Lifting.Form
import EvmLift.Proofs.Linking.Form
import EvmLift.Proofs.SingleAssignment
import EvmLift.Proofs.ControlFlow
import EvmLift.Proofs.Linking.Renaming
import EvmLift.Proofs.IdlePushes
import EvmLift.Proofs.Json.Encoding
import EvmLift.Proofs.Lifting.Correctness
import EvmLift.Proofs.Listing.Assembly
import EvmLift.Proofs.Simplification.Form
import EvmLift.Proofs.Lifting.Demand
import EvmLift.Proofs.Lifting.Conservation
import EvmLift.Proofs.Lifting.Independence
import EvmLift.Proofs.InlinedConstants
import EvmLift.Proofs.Linking.Walk
import EvmLift.Proofs.Linking.Renumbering
import EvmLift.Proofs.Simplification.Width
import EvmLift.Proofs.Simplification.Passes
import EvmLift.Proofs.Simplification.Expressions
import EvmLift.Proofs.Simplification.Completeness
import EvmLift.Proofs.HexSource
import EvmLift.Proofs.Loading
import EvmLift.Proofs.UnboundedStack
import EvmLift.Proofs.PeekedValues
import EvmLift.Proofs.Word.Integers
import EvmLift.Proofs.Word.Powers
import EvmLift.Proofs.Listing.Colour
