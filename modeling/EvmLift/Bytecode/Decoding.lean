import EvmLift.Bytecode.Basic
import EvmLift.Instruction
import EvmLift.Warning

/-!
# Decoding

Code is cut into instructions from its first byte on. The bytes after a push belong
to its constant and are never read as opcodes. A push whose constant runs past the
end of the code is an `invalid` instruction, and the last one.
-/

namespace EvmLift

/-- The instructions of some code, and what there is to say about its end. -/
structure Decoding where
  instructions : List Instruction
  warnings : List Warning
  deriving Repr, DecidableEq

namespace Bytecode

/-- Decode code whose first byte has the given offset. -/
def decodeFrom (offset : Nat) : Bytecode → Decoding
  | [] => ⟨[], []⟩
  | byte :: rest =>
      let op := Opcode.ofByte byte
      let immediate := rest.take op.immediate
      if op.isPush && immediate.length < op.immediate then
        ⟨[⟨offset, .invalid, none⟩],
          [.truncatedPush op.mnemonic offset op.immediate immediate.length]⟩
      else
        let constants := if op.isPush then some [Word.ofBytes immediate] else none
        let following := decodeFrom (offset + 1 + op.immediate) (rest.drop op.immediate)
        { following with instructions := ⟨offset, op, constants⟩ :: following.instructions }
termination_by code => code.length
decreasing_by
  simp only [List.length_drop, List.length_cons]
  omega

/-- The instructions of code. -/
def decode (code : Bytecode) : List Instruction :=
  (decodeFrom 0 code).instructions

/-- The warning about a push that the end of the code cuts off. -/
def warnings (code : Bytecode) : List Warning :=
  (decodeFrom 0 code).warnings

end Bytecode

end EvmLift
