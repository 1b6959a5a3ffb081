import EvmLift.Opcode.Table
import Mathlib.Algebra.Ring.Nat
import Mathlib.Order.Bounds.Basic

/-!
# The width of a push

The size of a word in bytes is computed from its leading bit. It is the least number of bytes that
hold the word, so the push that is chosen for a computed constant is the narrowest one that has
room for it, among those that have any room at all.
-/

namespace EvmLift

namespace Word

/-- A word fits into as many bytes as its size, and into no fewer. -/
theorem lt_pow_iff {value : Word} {width : Nat} :
    value.toNat < 256 ^ width ↔ value.byteSize ≤ width := by
  have bytes : 256 ^ width = 2 ^ (8 * width) := by
    rw [Nat.pow_mul]
  unfold byteSize bitSize
  split
  next zero =>
    rw [zero]
    exact iff_of_true (Nat.pow_pos (by decide)) (Nat.zero_le width)
  next other =>
    have positive : value.toNat ≠ 0 := by
      intro equal
      exact other (BitVec.eq_of_toNat_eq equal)
    rw [bytes, ← Nat.log2_lt positive]
    omega

theorem byteSize_le (value : Word) : value.byteSize ≤ 32 :=
  lt_pow_iff.mp value.isLt

end Word

namespace Opcode

theorem pushFor_eq (value : Word) : pushFor value = push (max 1 value.byteSize) := by
  rw [pushFor, pushOfWidth, Nat.min_eq_left value.byteSize_le]

theorem immediate_pushFor_le (value : Word) : (pushFor value).immediate ≤ 32 := by
  rw [pushFor_eq]
  exact Nat.max_le.mpr ⟨by decide, value.byteSize_le⟩

/-- A computed constant fits into its push. -/
theorem lt_pow_pushFor (value : Word) : value.toNat < 256 ^ (pushFor value).immediate := by
  rw [pushFor_eq, Word.lt_pow_iff]
  exact Nat.le_max_right _ _

/-- No narrower push has room for the constant. -/
theorem isLeast_immediate_pushFor (value : Word) :
    IsLeast {width | 1 ≤ width ∧ value.toNat < 256 ^ width} (pushFor value).immediate := by
  refine ⟨⟨?_, lt_pow_pushFor value⟩, ?_⟩
  · rw [pushFor_eq]
    exact Nat.le_max_left _ _
  · rintro width ⟨positive, fits⟩
    rw [pushFor_eq]
    exact Nat.max_le.mpr ⟨positive, Word.lt_pow_iff.mp fits⟩

end Opcode

end EvmLift
