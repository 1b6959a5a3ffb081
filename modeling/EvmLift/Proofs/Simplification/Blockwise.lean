import EvmLift.Proofs.Blocks
import EvmLift.Proofs.Simplification.Firing

/-!
# Simplification works block by block

A scan never looks or reaches beyond a jump destination, and never replaces one. So scanning
a stream is scanning the parts between its jump destinations, and the blocks of a simplified
stream are the simplified blocks.
-/

namespace EvmLift

namespace Rule

variable {rule : Rule} {before : List Instruction} {next : Instruction} {replacement : Replacement}

theorem le_length_of_pushedBefore? {count : Nat} {before : List Instruction} {words : List Word}
    (pushed : pushedBefore? count before = some words) : count ≤ before.length := by
  induction count generalizing before words with
  | zero => exact Nat.zero_le _
  | succ count ih =>
      cases before with
      | nil => cases pushed
      | cons nearest before =>
          obtain ⟨_, others, _, rest, _⟩ := pushedBefore?_succ_eq_some.mp pushed
          exact Nat.succ_le_succ (ih rest)

namespace MovesConstants

/-- A step after a jump destination does what it does without anything before. -/
theorem step_append_dest (moves : MovesConstants rule) {dest : Instruction}
    (kind : dest.op.kind = .jumpDest) {passed whole : Scanned} {back : List Instruction}
    (joined : whole.instructions = passed.instructions ++ dest :: back) (next : Instruction) :
    (rule.step whole next).instructions =
      (rule.step passed next).instructions ++ dest :: back := by
  have same := moves.near passed.instructions dest back next kind
  rw [← joined] at same
  cases fires : rule passed.instructions next with
  | none =>
      rw [step_eq_of_none fires, step_eq_of_none (same.trans fires), joined, List.cons_append]
  | some replacement =>
      obtain ⟨words, pushed⟩ := (moves.fired _ _ _ fires).pushed
      rw [step_eq_of_some fires, step_eq_of_some (same.trans fires), joined, List.cons_append,
        List.drop_append_of_le_length (le_length_of_pushedBefore? pushed)]

theorem foldl_append_dest (moves : MovesConstants rule) {dest : Instruction}
    (kind : dest.op.kind = .jumpDest) {passed whole : Scanned} {back : List Instruction}
    (joined : whole.instructions = passed.instructions ++ dest :: back)
    (instructions : List Instruction) :
    (instructions.foldl rule.step whole).instructions =
      (instructions.foldl rule.step passed).instructions ++ dest :: back := by
  induction instructions generalizing passed whole with
  | nil => exact joined
  | cons next rest ih => exact ih (moves.step_append_dest kind joined next)

theorem scan_append_dest (moves : MovesConstants rule) (leading : List Instruction)
    {dest : Instruction} (rest : List Instruction) (kind : dest.op.kind = .jumpDest)
    (standard : dest.Standard) :
    (rule.scan (leading ++ dest :: rest)).instructions =
      (rule.scan leading).instructions ++ dest :: (rule.scan rest).instructions := by
  have quiet : ∀ before, rule before dest = none := by
    intro before
    rw [Option.eq_none_iff_forall_ne_some]
    intro replacement fires
    exact (moves.fired _ _ _ fires).kind_ne_jumpDest standard kind
  simp only [scan, List.foldl_append, List.foldl_cons]
  rw [step_eq_of_none (quiet _), moves.foldl_append_dest kind
    (rfl : _ = (⟨[], 0⟩ : Scanned).instructions ++ dest :: _)]
  simp

/-- Scanning works block by block. -/
theorem blockwise_scan (moves : MovesConstants rule) :
    Block.Blockwise fun instructions => (rule.scan instructions).instructions where
  nil := rfl
  unmarked := by
    intro leading standard unmarked instruction member
    refine (forall_mem_scan (motive := fun instruction =>
      instruction.Standard ∧ instruction.op.kind ≠ .jumpDest) ?_
      (fun instruction member => ⟨standard instruction member, unmarked instruction member⟩)
      instruction member).2
    rintro before next replacement ⟨old, notDest⟩ fires
    have fired := moves.fired _ _ _ fires
    refine ⟨fired.standard old, ?_⟩
    rcases fired.op_eq_or_isPush with same | push
    · rwa [same]
    · simp [push]
  nonempty := by
    intro leading nonempty
    obtain ⟨front, last, rfl⟩ := leading.eq_nil_or_concat.resolve_left nonempty
    simp only [scan, List.concat_eq_append, List.foldl_append, List.foldl_cons, List.foldl_nil,
      ne_eq, List.reverse_eq_nil_iff]
    unfold step
    split <;> simp
  append_dest := by
    intro leading dest rest standard kind
    exact moves.scan_append_dest leading rest kind (standard dest (by simp))
  standard := fun _ => moves.standard_scan

end MovesConstants

end Rule

namespace Block.Blockwise

theorem comp {first second : List Instruction → List Instruction} (one : Blockwise first)
    (two : Blockwise second) : Blockwise fun instructions => second (first instructions) where
  nil := by rw [one.nil, two.nil]
  unmarked := fun leading standard unmarked =>
    two.unmarked _ (one.standard leading standard) (one.unmarked leading standard unmarked)
  nonempty := fun leading nonempty => two.nonempty _ (one.nonempty leading nonempty)
  append_dest := by
    intro leading dest rest standard kind
    have middle := one.standard _ standard
    rw [one.append_dest leading dest rest standard kind] at middle ⊢
    exact two.append_dest _ dest _ middle kind
  standard := fun instructions standard => two.standard _ (one.standard instructions standard)

/-- Simplification works block by block. -/
theorem blockwise_simplify : Blockwise Instruction.simplify := by
  refine Instruction.simplify_induction ?_ fun pass rule moves blockwise =>
    blockwise.comp moves.blockwise_scan
  exact ⟨rfl, fun _ _ unmarked => unmarked, fun _ nonempty => nonempty, fun _ _ _ _ _ => rfl,
    fun _ standard => standard⟩

end Block.Blockwise

end EvmLift
