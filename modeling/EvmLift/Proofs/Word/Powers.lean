import EvmLift.Operator
import Mathlib.Algebra.Ring.Nat
import Mathlib.Data.BitVec

/-!
# Powers and residues of words

A power is computed by squaring. Round by round the lowest bit of the exponent decides whether the
current square becomes a factor, until no bit is left, and the factors make up the power modulo
2 ^ 256. Sums and products modulo a word are taken in 512 bits, which hold them whole, and a residue
fits into a word again.
-/

namespace EvmLift

namespace Word

/-! ## Powers by squaring -/

/-- Half of the exponent goes to the square, and an odd exponent leaves one factor. -/
theorem pow_eq_halved (base : Word) (exponent : Nat) :
    base ^ exponent =
      (if exponent % 2 = 1 then base else 1) * (base * base) ^ (exponent / 2) := by
  have square : (base * base) ^ (exponent / 2) = base ^ (2 * (exponent / 2)) := by
    rw [← pow_two, ← pow_mul]
  split
  next odd =>
    have whole : exponent = 2 * (exponent / 2) + 1 := by omega
    rw [square, ← pow_succ', ← whole]
  next even =>
    have whole : exponent = 2 * (exponent / 2) := by omega
    rw [square, one_mul, ← whole]

theorem power_eq_pow (base : Word) (exponent : Nat) : power base exponent = base ^ exponent := by
  fun_induction power base exponent with
  | case1 base => rw [pow_zero]
  | case2 base exponent nonzero rest odd ih => rw [pow_eq_halved, if_pos odd, ← ih]
  | case3 base exponent nonzero rest even ih => rw [pow_eq_halved, if_neg even, one_mul, ← ih]

theorem toNat_pow (base : Word) (exponent : Nat) :
    (base ^ exponent).toNat = base.toNat ^ exponent % 2 ^ 256 := by
  induction exponent with
  | zero => rfl
  | succ exponent ih => rw [pow_succ, BitVec.toNat_mul, ih, Nat.mod_mul_mod, ← Nat.pow_succ]

theorem lt_two_pow_iff {value : Word} {bits : Nat} :
    value.toNat < 2 ^ bits ↔ value.bitSize ≤ bits := by
  rw [bitSize]
  split
  next zero =>
    rw [zero]
    exact iff_of_true (Nat.two_pow_pos bits) (Nat.zero_le bits)
  next nonzero =>
    have positive : value.toNat ≠ 0 := by
      intro equal
      exact nonzero (BitVec.eq_of_toNat_eq equal)
    rw [← Nat.log2_lt positive, Nat.lt_iff_add_one_le]

/-- A power on its way, one bit of the exponent after the other. -/
structure Squaring where
  /-- The factors that the bits so far contributed. -/
  product : Word
  /-- The factor of the next bit. -/
  square : Word
  /-- The bits that are left. -/
  exponent : Word

namespace Squaring

/-- Before the first bit. -/
def start (base exponent : Word) : Squaring where
  product := 1
  square := base
  exponent := exponent

/-- One bit. The next square is not taken if that was the last one. -/
def round (state : Squaring) : Squaring :=
  let rest := state.exponent >>> 1
  { product := if state.exponent.getLsbD 0 then state.product * state.square else state.product
    square := if rest = 0 then state.square else state.square * state.square
    exponent := rest }

/-- The power that a state is on its way to. -/
def target (state : Squaring) : Word :=
  state.product * state.square ^ state.exponent.toNat

theorem toNat_exponent_round (state : Squaring) :
    state.round.exponent.toNat = state.exponent.toNat / 2 := by
  rw [round, BitVec.toNat_ushiftRight, Nat.shiftRight_eq_div_pow, Nat.pow_one]

/-- A skipped square is raised to zero. -/
theorem square_round_pow (state : Squaring) :
    state.round.square ^ state.round.exponent.toNat =
      (state.square * state.square) ^ (state.exponent.toNat / 2) := by
  rw [← toNat_exponent_round]
  simp only [round]
  split
  next last =>
    rw [last]
    exact (pow_zero _).trans (pow_zero _).symm
  next more => rfl

theorem product_round (state : Squaring) :
    state.round.product =
      state.product * if state.exponent.toNat % 2 = 1 then state.square else 1 := by
  rw [round, BitVec.getLsbD, Nat.testBit_zero]
  split <;> simp_all

/-- A round moves one factor and keeps the power. -/
theorem target_round (state : Squaring) : state.round.target = state.target := by
  rw [target, square_round_pow, product_round, mul_assoc, ← pow_eq_halved, target]

theorem target_rounds (rounds : Nat) (state : Squaring) :
    (round^[rounds] state).target = state.target := by
  induction rounds with
  | zero => rfl
  | succ rounds ih => rw [Function.iterate_succ_apply', target_round, ih]

theorem toNat_exponent_rounds (rounds : Nat) (state : Squaring) :
    (round^[rounds] state).exponent.toNat = state.exponent.toNat / 2 ^ rounds := by
  induction rounds with
  | zero => rw [Nat.pow_zero, Nat.div_one]; rfl
  | succ rounds ih =>
      rw [Function.iterate_succ_apply', toNat_exponent_round, ih, Nat.div_div_eq_div_mul,
        Nat.pow_succ]

/-- No bit is left exactly after as many rounds as the exponent has bits. -/
theorem exponent_rounds_eq_zero_iff {rounds : Nat} {state : Squaring} :
    (round^[rounds] state).exponent = 0 ↔ state.exponent.bitSize ≤ rounds := by
  rw [← BitVec.toNat_inj, toNat_exponent_rounds, ← lt_two_pow_iff]
  exact Nat.div_eq_zero_iff_lt (Nat.two_pow_pos rounds)

theorem product_of_exponent_eq_zero {state : Squaring} (finished : state.exponent = 0) :
    state.product = state.target := by
  rw [target, finished]
  exact (mul_one _).symm

theorem product_rounds (base exponent : Word) :
    (round^[exponent.bitSize] (start base exponent)).product = power base exponent.toNat := by
  have finished : (round^[exponent.bitSize] (start base exponent)).exponent = 0 :=
    exponent_rounds_eq_zero_iff.mpr (Nat.le_refl _)
  calc (round^[exponent.bitSize] (start base exponent)).product
    _ = (round^[exponent.bitSize] (start base exponent)).target :=
        product_of_exponent_eq_zero finished
    _ = (start base exponent).target := target_rounds _ _
    _ = base ^ exponent.toNat := one_mul _
    _ = power base exponent.toNat := (power_eq_pow base exponent.toNat).symm

end Squaring

/-! ## Residues -/

/-- A sum does not wrap in twice the width. -/
theorem toNat_add_doubled {width : Nat} (positive : 0 < width) (left right : BitVec width) :
    (left.setWidth (width + width) + right.setWidth (width + width)).toNat =
      left.toNat + right.toNat := by
  rw [BitVec.toNat_add, BitVec.toNat_setWidth_of_le (Nat.le_add_left _ _),
    BitVec.toNat_setWidth_of_le (Nat.le_add_left _ _)]
  apply Nat.mod_eq_of_lt
  calc left.toNat + right.toNat
    _ < 2 ^ width + 2 ^ width := Nat.add_lt_add left.isLt right.isLt
    _ = 2 ^ (width + 1) := (Nat.two_pow_succ width).symm
    _ ≤ 2 ^ (width + width) := Nat.pow_le_pow_right (by decide) (Nat.add_le_add_left positive width)

/-- Neither does a product. -/
theorem toNat_mul_doubled {width : Nat} (left right : BitVec width) :
    (left.setWidth (width + width) * right.setWidth (width + width)).toNat =
      left.toNat * right.toNat := by
  rw [BitVec.toNat_mul, BitVec.toNat_setWidth_of_le (Nat.le_add_left _ _),
    BitVec.toNat_setWidth_of_le (Nat.le_add_left _ _)]
  apply Nat.mod_eq_of_lt
  calc left.toNat * right.toNat
    _ < 2 ^ width * 2 ^ width := Nat.mul_lt_mul'' left.isLt right.isLt
    _ = 2 ^ (width + width) := (Nat.pow_add 2 width width).symm

theorem toNat_wide_add (left right : Word) :
    (left.setWidth 512 + right.setWidth 512).toNat = left.toNat + right.toNat :=
  toNat_add_doubled (by decide) left right

theorem toNat_wide_mul (left right : Word) :
    (left.setWidth 512 * right.setWidth 512).toNat = left.toNat * right.toNat :=
  toNat_mul_doubled left right

theorem toNat_wide (value : Word) : (value.setWidth 512).toNat = value.toNat :=
  BitVec.toNat_setWidth_of_le (by decide)

/-- The low half of a residue is the residue. -/
theorem toNat_residue {modulus : Word} (nonzero : modulus ≠ 0) (wide : BitVec 512) :
    ((wide % modulus.setWidth 512).setWidth 256).toNat = wide.toNat % modulus.toNat := by
  have positive : 0 < modulus.toNat := by
    apply Nat.pos_of_ne_zero
    intro equal
    exact nonzero (BitVec.eq_of_toNat_eq equal)
  have small : wide.toNat % modulus.toNat < 2 ^ 256 :=
    Nat.lt_trans (Nat.mod_lt _ positive) modulus.isLt
  rw [BitVec.toNat_setWidth, BitVec.toNat_umod, toNat_wide, Nat.mod_eq_of_lt small]

end Word

/-! ## Operators -/

namespace Operator

/-- What `exp` computes. -/
structure PowerLaws (base exponent : Word) : Prop where
  /-- Squaring ends, after as many rounds as the exponent has bits and not before. -/
  ends : ∀ rounds,
    (Word.Squaring.round^[rounds] (.start base exponent)).exponent = 0 ↔
      exponent.bitSize ≤ rounds
  /-- The result is the product at that time. -/
  squaring : Operator.exp.compute? [base, exponent] =
    some (Word.Squaring.round^[exponent.bitSize] (.start base exponent)).product
  exp : (Operator.exp.compute? [base, exponent]).map BitVec.toNat =
    some (base.toNat ^ exponent.toNat % 2 ^ 256)

theorem powerLaws (base exponent : Word) : PowerLaws base exponent where
  ends _ := Word.Squaring.exponent_rounds_eq_zero_iff
  squaring := by rw [compute?, Word.Squaring.product_rounds]
  exp := by rw [compute?, Option.map_some, Word.power_eq_pow, Word.toNat_pow]

/-- What `addmod` and `mulmod` compute. -/
structure ModularLaws (left right modulus : Word) : Prop where
  addmod : (Operator.addmod.compute? [left, right, modulus]).map BitVec.toNat =
    some (if modulus = 0 then 0 else (left.toNat + right.toNat) % modulus.toNat)
  mulmod : (Operator.mulmod.compute? [left, right, modulus]).map BitVec.toNat =
    some (if modulus = 0 then 0 else (left.toNat * right.toNat) % modulus.toNat)
  /-- The sum does not wrap before it is reduced. -/
  sum : (left.setWidth 512 + right.setWidth 512).toNat = left.toNat + right.toNat
  /-- Nor does the product. -/
  product : (left.setWidth 512 * right.setWidth 512).toNat = left.toNat * right.toNat
  /-- A residue loses nothing when it becomes a word again. -/
  residue : modulus ≠ 0 → ∀ wide : BitVec 512,
    ((wide % modulus.setWidth 512).setWidth 256).toNat = (wide % modulus.setWidth 512).toNat

theorem modularLaws (left right modulus : Word) : ModularLaws left right modulus where
  addmod := by
    rw [compute?, Option.map_some, Word.sumModulo]
    split
    next zero => rfl
    next nonzero => rw [Word.toNat_residue nonzero, Word.toNat_wide_add]
  mulmod := by
    rw [compute?, Option.map_some, Word.productModulo]
    split
    next zero => rfl
    next nonzero => rw [Word.toNat_residue nonzero, Word.toNat_wide_mul]
  sum := Word.toNat_wide_add left right
  product := Word.toNat_wide_mul left right
  residue nonzero wide := by
    rw [Word.toNat_residue nonzero, BitVec.toNat_umod, Word.toNat_wide]

/-- Powers are exact modulo 2 ^ 256 and take as many rounds as the exponent has bits, and sums and
products modulo a word are those of the integers. -/
theorem powers_and_residues (first second third : Word) :
    PowerLaws first second ∧ ModularLaws first second third :=
  ⟨powerLaws first second, modularLaws first second third⟩

end Operator

end EvmLift
