import EvmLift.Operator
import EvmLift.Proofs.Encoding
import Mathlib.Algebra.Ring.Int.Defs

/-!
# Signed words, shifts and bytes as integers

A word read in two's complement is an integer. Signed operators split their operands into sign and
magnitude, shifts and selections of bytes compare whole words before they move bits, and sign
extension works with a mask. All of them compute what the integers say, for every word: the quotient
that is rounded toward zero and its remainder, the order of the integers, products and quotients by
powers of two, the integer in the low bytes, and a digit in base 256.
-/

namespace EvmLift

namespace Word

/-! ## Division and order -/

/-- Magnitudes with the sign restored are the signed quotient, also for the least word. -/
theorem signedQuotient_eq_sdiv (dividend divisor : Word) :
    signedQuotient dividend divisor = dividend.sdiv divisor := by
  unfold signedQuotient magnitude isNegative
  split
  next zero =>
    rw [zero]
    exact BitVec.sdiv_zero.symm
  next nonzero =>
    rw [BitVec.sdiv_eq]
    cases dividend.msb <;> cases divisor.msb <;> rfl

theorem signedRemainder_eq_srem {divisor : Word} (nonzero : divisor ≠ 0) (dividend : Word) :
    signedRemainder dividend divisor = dividend.srem divisor := by
  rw [signedRemainder, if_neg nonzero, BitVec.srem_eq]
  unfold magnitude isNegative
  cases dividend.msb <;> cases divisor.msb <;> rfl

/-- The quotient wraps where it does not fit, which is the least word divided by minus one. -/
theorem signedQuotient_eq_ofInt (dividend divisor : Word) :
    signedQuotient dividend divisor =
      BitVec.ofInt 256 (dividend.toInt.tdiv divisor.toInt) := by
  apply BitVec.eq_of_toInt_eq
  rw [signedQuotient_eq_sdiv, BitVec.toInt_sdiv, BitVec.toInt_ofInt]

theorem signedRemainder_eq_ofInt {divisor : Word} (nonzero : divisor ≠ 0) (dividend : Word) :
    signedRemainder dividend divisor =
      BitVec.ofInt 256 (dividend.toInt.tmod divisor.toInt) := by
  rw [signedRemainder_eq_srem nonzero, ← BitVec.toInt_srem, BitVec.ofInt_toInt]

theorem signedLess_eq_decide (left right : Word) :
    signedLess left right = decide (left.toInt < right.toInt) := by
  have bound := left.isLt
  have bound' := right.isLt
  unfold signedLess isNegative
  rw [BitVec.toInt_eq_msb_cond, BitVec.toInt_eq_msb_cond]
  cases left.msb <;> cases right.msb <;> simp [BitVec.lt_def]
  all_goals omega

/-! ## Shifts -/

theorem toNat_shiftLeft (amount value : Word) :
    (shiftLeft amount value).toNat = value.toNat * 2 ^ amount.toNat % 2 ^ 256 := by
  unfold shiftLeft
  split
  next far =>
    have reaches : 256 ≤ amount.toNat := far
    have whole : 2 ^ 256 ∣ value.toNat * 2 ^ amount.toNat :=
      Nat.dvd_mul_left_of_dvd (Nat.pow_dvd_pow 2 reaches) _
    exact (Nat.mod_eq_zero_of_dvd whole).symm
  next near => rw [BitVec.toNat_shiftLeft, Nat.shiftLeft_eq]

theorem toNat_shiftRight (amount value : Word) :
    (shiftRight amount value).toNat = value.toNat / 2 ^ amount.toNat := by
  unfold shiftRight
  split
  next far =>
    have reaches : 256 ≤ amount.toNat := far
    have small : value.toNat < 2 ^ amount.toNat :=
      Nat.lt_of_lt_of_le value.isLt (Nat.pow_le_pow_right (by decide) reaches)
    exact (Nat.div_eq_of_lt small).symm
  next near => rw [BitVec.toNat_ushiftRight, Nat.shiftRight_eq_div_pow]

/-- Filling with copies of the sign shifts the integer, whatever the amount. -/
theorem signedShiftRight_eq_sshiftRight (amount value : Word) :
    signedShiftRight amount value = value.sshiftRight amount.toNat := by
  apply BitVec.eq_of_getLsbD_eq
  intro index inside
  have filler :
      (if value.isNegative then BitVec.allOnes 256 else 0).getLsbD index = value.msb := by
    rw [isNegative]
    split
    next negative => rw [BitVec.getLsbD_allOnes, decide_eq_true inside, negative]
    next positive => simpa using positive
  rw [BitVec.getLsbD_sshiftRight, decide_eq_false (Nat.not_le_of_lt inside), signedShiftRight]
  by_cases far : (256 : Word) ≤ amount
  · have reaches : 256 ≤ amount.toNat := far
    rw [if_pos far, filler, if_neg (by omega)]
    rfl
  · rw [if_neg far, BitVec.getLsbD_or, BitVec.getLsbD_and, BitVec.getLsbD_not,
      BitVec.getLsbD_ushiftRight, BitVec.getLsbD_ushiftRight, BitVec.getLsbD_allOnes, filler]
    by_cases kept : amount.toNat + index < 256
    · simp [inside, kept]
    · simp [inside, kept, BitVec.getLsbD_of_ge value _ (Nat.le_of_not_lt kept)]

theorem toInt_signedShiftRight (amount value : Word) :
    (signedShiftRight amount value).toInt = value.toInt.fdiv (2 ^ amount.toNat) := by
  have positive : (0 : Int) ≤ 2 ^ amount.toNat := Int.le_of_lt (Int.pow_pos (by decide))
  rw [signedShiftRight_eq_sshiftRight, BitVec.toInt_sshiftRight, Int.shiftRight_eq_div_pow,
    Int.fdiv_eq_ediv_of_nonneg _ positive, Int.natCast_pow]
  rfl

/-! ## Sign extension -/

/-- The mask that stands below a sign has the lower bits and no others. -/
theorem getLsbD_mask (width index : Nat) :
    ((1 : Word) <<< width - 1).getLsbD index = decide (index < 256 ∧ index < width) := by
  have complement : (1 : Word) <<< width - 1 = ~~~(BitVec.allOnes 256 <<< width) := by
    rw [← BitVec.neg_one_eq_allOnes, BitVec.shiftLeft_neg, BitVec.not_neg]
    rfl
  rw [complement, BitVec.getLsbD_not, BitVec.getLsbD_shiftLeft, BitVec.getLsbD_allOnes]
  by_cases inside : index < 256 <;> simp [inside]
  omega

/-- Bits above the sign repeat it, and bits below it stay. -/
theorem getLsbD_extendSign {position : Word} (early : position.toNat < 31) (value : Word)
    {index : Nat} (inside : index < 256) :
    (extendSign position value).getLsbD index =
      value.getLsbD (min index (position.toNat * 8 + 7)) := by
  have notLast : ¬ (31 : Word) ≤ position := Nat.not_le_of_lt early
  rw [extendSign, if_neg notLast]
  dsimp only
  split
  next negative =>
    rw [BitVec.getLsbD_or, BitVec.getLsbD_not, getLsbD_mask]
    rcases Nat.lt_or_ge index (position.toNat * 8 + 7) with below | above
    · simp [inside, below, Nat.min_eq_left (Nat.le_of_lt below), -BitVec.getLsbD_eq_getElem]
    · simp [inside, Nat.not_lt_of_le above, Nat.min_eq_right above, negative,
        -BitVec.getLsbD_eq_getElem]
  next positive =>
    rw [BitVec.getLsbD_and, getLsbD_mask]
    rcases Nat.lt_or_ge index (position.toNat * 8 + 7) with below | above
    · simp [inside, below, Nat.min_eq_left (Nat.le_of_lt below), -BitVec.getLsbD_eq_getElem]
    · simp [Nat.not_lt_of_le above, Nat.min_eq_right above, positive, -BitVec.getLsbD_eq_getElem]

theorem extendSign_eq_signExtend {position : Word} (early : position.toNat < 31) (value : Word) :
    extendSign position value =
      (value.setWidth (8 * (position.toNat + 1))).signExtend 256 := by
  have sign : 8 * (position.toNat + 1) - 1 = position.toNat * 8 + 7 := by omega
  apply BitVec.eq_of_getLsbD_eq
  intro index inside
  rw [getLsbD_extendSign early value inside, BitVec.getLsbD_signExtend, BitVec.msb_setWidth, sign]
  by_cases low : index < 8 * (position.toNat + 1)
  · rw [if_pos low, BitVec.getLsbD_setWidth, Nat.min_eq_left (by omega)]
    simp only [inside, low, decide_true, Bool.true_and]
  · rw [if_neg low, Nat.min_eq_right (by omega)]
    simp [inside]

theorem toInt_extendSign (position value : Word) :
    (extendSign position value).toInt =
      if position.toNat < 31 then (value.setWidth (8 * (position.toNat + 1))).toInt
      else value.toInt := by
  split
  next early =>
    rw [extendSign_eq_signExtend early, BitVec.toInt_signExtend_of_le (by omega)]
  next late =>
    have last : (31 : Word) ≤ position := Nat.le_of_not_lt late
    rw [extendSign, if_pos last]

/-! ## Bytes -/

/-- The digit at a place, counted from the most significant one. -/
theorem getElem?_digits {width place : Nat} (inside : place < width) (value : Nat) :
    (digits width value)[place]? = some (UInt8.ofNat (value / 256 ^ (width - 1 - place))) := by
  induction width generalizing value with
  | zero => exact absurd inside (Nat.not_lt_zero place)
  | succ width ih =>
      rw [digits]
      rcases Nat.lt_or_eq_of_le (Nat.le_of_lt_succ inside) with before | rfl
      · have further : width + 1 - 1 - place = width - 1 - place + 1 := by omega
        rw [List.getElem?_append_left (by rwa [length_digits]), ih before, further,
          Nat.div_div_eq_div_mul, Nat.pow_succ, Nat.mul_comm]
      · rw [List.getElem?_append_right (by rw [length_digits]), length_digits]
        simp

theorem toNat_byteAt (position value : Word) :
    (byteAt position value).toNat = ((value.toBytes 32).getD position.toNat 0).toNat := by
  rw [byteAt, List.getD_eq_getElem?_getD]
  split
  next outside =>
    have beyond : 32 ≤ position.toNat := outside
    rw [List.getElem?_eq_none (by rwa [length_toBytes])]
    rfl
  next inside =>
    have place : position.toNat < 32 := Nat.lt_of_not_le inside
    have bytes : 2 ^ ((31 - position.toNat) * 8) = 256 ^ (31 - position.toNat) := by
      rw [Nat.mul_comm, Nat.pow_mul]
    have low (number : Nat) : number &&& 255 = number % 256 :=
      Nat.and_two_pow_sub_one_eq_mod number 8
    rw [toBytes, getElem?_digits place, Option.getD_some, UInt8.toNat_ofNat', BitVec.toNat_and,
      BitVec.toNat_ushiftRight, Nat.shiftRight_eq_div_pow, bytes]
    exact low _

end Word

/-! ## Operators -/

namespace Operator

/-- What operators on two words compute, as integers. The operand on top of the stack comes first:
the dividend, and the amount or the place that moves or selects bits. -/
structure IntegerLaws (first second : Word) : Prop where
  /-- The quotient is rounded toward zero. -/
  sdiv : Operator.sdiv.compute? [first, second] =
    some (if second = 0 then 0 else BitVec.ofInt 256 (first.toInt.tdiv second.toInt))
  /-- The remainder that belongs to this quotient has the sign of the dividend. -/
  smod : Operator.smod.compute? [first, second] =
    some (if second = 0 then 0 else BitVec.ofInt 256 (first.toInt.tmod second.toInt))
  slt : Operator.slt.compute? [first, second] =
    some (Word.ofCondition (first.toInt < second.toInt))
  sgt : Operator.sgt.compute? [first, second] =
    some (Word.ofCondition (first.toInt > second.toInt))
  shl : (Operator.shl.compute? [first, second]).map BitVec.toNat =
    some (second.toNat * 2 ^ first.toNat % 2 ^ 256)
  shr : (Operator.shr.compute? [first, second]).map BitVec.toNat =
    some (second.toNat / 2 ^ first.toNat)
  /-- The quotient by a power of two is rounded down. -/
  sar : (Operator.sar.compute? [first, second]).map BitVec.toInt =
    some (second.toInt.fdiv (2 ^ first.toNat))
  /-- The low bytes up to a place hold a signed integer; from the last place on that is all of
  them. -/
  signextend : (Operator.signextend.compute? [first, second]).map BitVec.toInt =
    some (if first.toNat < 31 then (second.setWidth (8 * (first.toNat + 1))).toInt
      else second.toInt)
  /-- Bytes are in big-endian order, and there is none from place 32 on. -/
  byte : (Operator.byte.compute? [first, second]).map BitVec.toNat =
    some ((second.toBytes 32).getD first.toNat 0).toNat

/-- Signed, shifting and selecting operators compute what the integers say. -/
theorem integerLaws (first second : Word) : IntegerLaws first second where
  sdiv := by
    rw [compute?, Word.signedQuotient_eq_ofInt]
    split
    next zero => simp [zero]
    next nonzero => rfl
  smod := by
    rw [compute?]
    split
    next zero => simp [Word.signedRemainder, zero]
    next nonzero => rw [Word.signedRemainder_eq_ofInt nonzero]
  slt := by rw [compute?, Word.signedLess_eq_decide]
  sgt := by rw [compute?, Word.signedLess_eq_decide]
  shl := by rw [compute?, Option.map_some, Word.toNat_shiftLeft]
  shr := by rw [compute?, Option.map_some, Word.toNat_shiftRight]
  sar := by rw [compute?, Option.map_some, Word.toInt_signedShiftRight]
  signextend := by rw [compute?, Option.map_some, Word.toInt_extendSign]
  byte := by rw [compute?, Option.map_some, Word.toNat_byteAt]

/-- The one quotient that does not fit. -/
example : Operator.sdiv.compute? [BitVec.intMin 256, BitVec.allOnes 256] =
    some (BitVec.intMin 256) := by
  decide

end Operator

end EvmLift
