import EvmLift.Word.Basic

/-!
# Word arithmetic

The machine's operations on words beyond the wrapping sum, difference and product
that `BitVec` has already. Division and remainder by zero are zero. Signed
operations work on magnitudes and restore the sign, so that truncation is toward
zero. Every amount that moves or selects bits is compared as a whole word first,
and only a small one is used as a count.
-/

namespace EvmLift.Word

/-- Unsigned remainder; zero for a zero divisor. -/
def remainder (dividend divisor : Word) : Word :=
  if divisor = 0 then 0 else dividend % divisor

/-- Signed quotient, truncated toward zero; zero for a zero divisor. -/
def signedQuotient (dividend divisor : Word) : Word :=
  if divisor = 0 then 0
  else
    let quotient := dividend.magnitude / divisor.magnitude
    if dividend.isNegative != divisor.isNegative then -quotient else quotient

/-- Signed remainder with the sign of the dividend; zero for a zero divisor. -/
def signedRemainder (dividend divisor : Word) : Word :=
  if divisor = 0 then 0
  else
    let rest := dividend.magnitude % divisor.magnitude
    if dividend.isNegative then -rest else rest

/-- The sum of two words modulo a third. The sum is taken in 512 bits, so that it
does not wrap before it is reduced. -/
def sumModulo (left right modulus : Word) : Word :=
  if modulus = 0 then 0
  else ((left.setWidth 512 + right.setWidth 512) % modulus.setWidth 512).setWidth 256

/-- The product of two words modulo a third. The product is taken in 512 bits, so
that it does not wrap before it is reduced. -/
def productModulo (left right modulus : Word) : Word :=
  if modulus = 0 then 0
  else ((left.setWidth 512 * right.setWidth 512) % modulus.setWidth 512).setWidth 256

/-- Wrapping power by squaring: each round halves the exponent and squares the
base, and an odd exponent contributes one factor. -/
def power (base : Word) (exponent : Nat) : Word :=
  if exponent = 0 then 1
  else
    let rest := power (base * base) (exponent / 2)
    if exponent % 2 = 1 then base * rest else rest
termination_by exponent

/-- Repeats the top bit of byte `position`, counted from the least significant one,
through all higher bits. The last byte has nothing above it. -/
def extendSign (position value : Word) : Word :=
  if 31 ≤ position then value
  else
    let signIndex := position.toNat * 8 + 7
    let below : Word := (1 : Word) <<< signIndex - 1
    if value.getLsbD signIndex then value ||| ~~~below else value &&& below

/-- Signed order. Words of one sign are ordered as unsigned ones are. -/
def signedLess (left right : Word) : Bool :=
  match left.isNegative, right.isNegative with
  | true, false => true
  | false, true => false
  | _, _ => left < right

/-- Byte `position` of a word, counted from the most significant one; zero outside
the word. -/
def byteAt (position value : Word) : Word :=
  if 32 ≤ position then 0
  else (value >>> ((31 - position.toNat) * 8)) &&& 0xff

/-- Shift toward the most significant bit, filling with zeros. -/
def shiftLeft (amount value : Word) : Word :=
  if 256 ≤ amount then 0 else value <<< amount.toNat

/-- Shift toward the least significant bit, filling with zeros. -/
def shiftRight (amount value : Word) : Word :=
  if 256 ≤ amount then 0 else value >>> amount.toNat

/-- Shift toward the least significant bit, filling with copies of the sign. -/
def signedShiftRight (amount value : Word) : Word :=
  let filler : Word := if value.isNegative then BitVec.allOnes 256 else 0
  if 256 ≤ amount then filler
  else (value >>> amount.toNat) ||| (filler &&& ~~~(BitVec.allOnes 256 >>> amount.toNat))

end EvmLift.Word
