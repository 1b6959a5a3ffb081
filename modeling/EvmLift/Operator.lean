import EvmLift.Word.Arithmetic

/-!
# Operators on constants

Some instructions compute a word from words and nothing else. Their operators are
data here, so that an opcode can name the one that it computes, and `compute?` runs
an operator on constant operands.
-/

namespace EvmLift

/-- The computations on words that depend on their operands alone. -/
inductive Operator where
  | add | mul | sub | div | sdiv | mod | smod | addmod | mulmod | exp | signextend
  | lt | gt | slt | sgt | eq | iszero
  | and | or | xor | not | byte
  | shl | shr | sar
  deriving Repr, DecidableEq

namespace Operator

/-- The number of operands. -/
def arity : Operator → Nat
  | .iszero | .not => 1
  | .addmod | .mulmod => 3
  | _ => 2

/-- The result on operands listed from the top of the stack; none if their number
is not the operator's arity. -/
def compute? : Operator → List Word → Option Word
  | .add, [left, right] => some (left + right)
  | .mul, [left, right] => some (left * right)
  | .sub, [left, right] => some (left - right)
  | .div, [left, right] => some (left / right)
  | .sdiv, [left, right] => some (Word.signedQuotient left right)
  | .mod, [left, right] => some (Word.remainder left right)
  | .smod, [left, right] => some (Word.signedRemainder left right)
  | .addmod, [left, right, modulus] => some (Word.sumModulo left right modulus)
  | .mulmod, [left, right, modulus] => some (Word.productModulo left right modulus)
  | .exp, [base, exponent] => some (Word.power base exponent.toNat)
  | .signextend, [position, value] => some (Word.extendSign position value)
  | .lt, [left, right] => some (Word.ofCondition (left < right))
  | .gt, [left, right] => some (Word.ofCondition (right < left))
  | .slt, [left, right] => some (Word.ofCondition (Word.signedLess left right))
  | .sgt, [left, right] => some (Word.ofCondition (Word.signedLess right left))
  | .eq, [left, right] => some (Word.ofCondition (left = right))
  | .iszero, [value] => some (Word.ofCondition (value = 0))
  | .and, [left, right] => some (left &&& right)
  | .or, [left, right] => some (left ||| right)
  | .xor, [left, right] => some (left ^^^ right)
  | .not, [value] => some (~~~value)
  | .byte, [position, value] => some (Word.byteAt position value)
  | .shl, [amount, value] => some (Word.shiftLeft amount value)
  | .shr, [amount, value] => some (Word.shiftRight amount value)
  | .sar, [amount, value] => some (Word.signedShiftRight amount value)
  | _, _ => none

/-- An operator runs on operands exactly if their number is its arity. -/
theorem isSome_compute?_iff (operator : Operator) (operands : List Word) :
    (operator.compute? operands).isSome ↔ operands.length = operator.arity := by
  cases operator <;>
    rcases operands with _ | ⟨first, _ | ⟨second, _ | ⟨third, _ | ⟨fourth, rest⟩⟩⟩⟩ <;>
    simp [compute?, arity]

end Operator

end EvmLift
