import EvmLift.Block
import EvmLift.Proofs.Standard

/-!
# The structure of block lists

Every stream is a run without jump destinations, followed by the parts that each begin with
one. Facts about blocks are proved along this structure. The blocks of decoded code start at
increasing offsets.
-/

namespace EvmLift

namespace Instruction

/-- A stream without jump destinations. -/
def Unmarked (instructions : List Instruction) : Prop :=
  ∀ instruction ∈ instructions, instruction.op.kind ≠ .jumpDest

/-- Induction over the parts that begin with jump destinations. -/
theorem dest_induction {motive : List Instruction → Prop}
    (unmarked : ∀ leading, Unmarked leading → motive leading)
    (marked : ∀ leading dest rest, Unmarked leading → dest.op.kind = .jumpDest → motive rest →
      motive (leading ++ dest :: rest))
    (instructions : List Instruction) : motive instructions := by
  suffices grown : ∀ leading, Unmarked leading → motive (leading ++ instructions) from
    grown [] (by simp [Unmarked])
  induction instructions with
  | nil => simpa using unmarked
  | cons instruction rest ih =>
      intro leading before
      by_cases dest : instruction.op.kind = .jumpDest
      · exact marked leading instruction rest before dest (ih [] (by simp [Unmarked]))
      · rw [List.append_cons]
        apply ih
        intro other member
        rcases List.mem_append.mp member with old | new
        · exact before other old
        · rw [List.mem_singleton.mp new]
          exact dest

end Instruction

namespace Block

open Instruction (Unmarked)

theorem cut_of_unmarked {leading : List Instruction} (unmarked : Unmarked leading) :
    cut leading = (leading, []) := by
  induction leading with
  | nil => rfl
  | cons instruction rest ih =>
      unfold Unmarked at unmarked
      rw [List.forall_mem_cons] at unmarked
      simp [cut, ih unmarked.2, Opcode.isJumpDest, unmarked.1]

theorem cut_append_dest {leading rest : List Instruction} {dest : Instruction}
    (unmarked : Unmarked leading) (kind : dest.op.kind = .jumpDest) :
    cut (leading ++ dest :: rest) =
      (leading, ⟨dest.offset, dest :: (cut rest).1⟩ :: (cut rest).2) := by
  induction leading with
  | nil => simp [cut, Opcode.isJumpDest, kind]
  | cons instruction leading ih =>
      unfold Unmarked at unmarked
      rw [List.forall_mem_cons] at unmarked
      simp [cut, ih unmarked.2, Opcode.isJumpDest, unmarked.1]

/-- A stream that does not start with a jump destination is split where it is cut. -/
theorem split_eq_cut {instructions : List Instruction} (leads : (cut instructions).1 ≠ []) :
    split instructions = ⟨0, (cut instructions).1⟩ :: (cut instructions).2 := by
  cases instructions with
  | nil => exact absurd rfl leads
  | cons first rest =>
      cases dest : first.op.isJumpDest with
      | true => simp [cut, dest] at leads
      | false => simp [split, cut, dest]

theorem forall_mem_cons_cut {motive : Instruction → Prop} {first : Instruction}
    {rest : List Instruction} (holds : ∀ instruction ∈ first :: rest, motive instruction) :
    ∀ instruction ∈ first :: (cut rest).1, motive instruction := by
  rw [← cut_append rest, ← List.cons_append] at holds
  exact fun instruction member => holds instruction (List.mem_append_left _ member)

/-- Splitting adds no instructions. -/
theorem forall_mem_split {motive : Instruction → Prop} {instructions : List Instruction}
    (holds : ∀ instruction ∈ instructions, motive instruction) :
    ∀ block ∈ split instructions, ∀ instruction ∈ block.instructions, motive instruction := by
  intro block listed instruction member
  apply holds
  rw [← flatMap_split instructions]
  exact List.mem_flatMap.mpr ⟨block, listed, member⟩

/-- A transformation of streams that leaves jump destinations alone and works on the parts
between them. -/
structure Blockwise (pass : List Instruction → List Instruction) : Prop where
  nil : pass [] = []
  unmarked : ∀ leading, (∀ instruction ∈ leading, instruction.Standard) → Unmarked leading →
    Unmarked (pass leading)
  nonempty : ∀ leading, leading ≠ [] → pass leading ≠ []
  append_dest : ∀ leading dest rest,
    (∀ instruction ∈ leading ++ dest :: rest, instruction.Standard) → dest.op.kind = .jumpDest →
    pass (leading ++ dest :: rest) = pass leading ++ dest :: pass rest
  standard : ∀ instructions, (∀ instruction ∈ instructions, instruction.Standard) →
    ∀ instruction ∈ pass instructions, instruction.Standard

namespace Blockwise

variable {pass : List Instruction → List Instruction}

/-- Apply a transformation to the instructions of a block. -/
def onBlock (pass : List Instruction → List Instruction) (block : Block) : Block :=
  { block with instructions := pass block.instructions }

@[simp] theorem offset_onBlock (block : Block) : (onBlock pass block).offset = block.offset := rfl

@[simp] theorem instructions_onBlock (block : Block) :
    (onBlock pass block).instructions = pass block.instructions := rfl

theorem cons_dest (blockwise : Blockwise pass) {dest : Instruction} {rest : List Instruction}
    (kind : dest.op.kind = .jumpDest)
    (standard : ∀ instruction ∈ dest :: rest, instruction.Standard) :
    pass (dest :: rest) = dest :: pass rest := by
  simpa [blockwise.nil] using blockwise.append_dest [] dest rest standard kind

theorem cut_pass (blockwise : Blockwise pass) (instructions : List Instruction)
    (standard : ∀ instruction ∈ instructions, instruction.Standard) :
    cut (pass instructions) =
      (pass (cut instructions).1, (cut instructions).2.map (onBlock pass)) := by
  induction instructions using Instruction.dest_induction with
  | unmarked leading unmarked =>
      rw [cut_of_unmarked unmarked, cut_of_unmarked (blockwise.unmarked leading standard unmarked)]
      rfl
  | marked leading dest rest unmarked kind ih =>
      have standardLeading : ∀ instruction ∈ leading, instruction.Standard := by
        intro instruction member
        exact standard instruction (List.mem_append_left _ member)
      have standardRest : ∀ instruction ∈ dest :: rest, instruction.Standard := by
        intro instruction member
        exact standard instruction (List.mem_append_right _ member)
      rw [blockwise.append_dest leading dest rest standard kind, cut_append_dest unmarked kind,
        cut_append_dest (blockwise.unmarked leading standardLeading unmarked) kind,
        ih fun instruction member => standardRest instruction (List.mem_cons_of_mem _ member)]
      rw [List.map_cons, onBlock, blockwise.cons_dest kind (forall_mem_cons_cut standardRest)]

/-- A transformation that works between jump destinations works block by block. -/
theorem split_pass (blockwise : Blockwise pass) (instructions : List Instruction)
    (standard : ∀ instruction ∈ instructions, instruction.Standard) :
    split (pass instructions) = (split instructions).map (onBlock pass) := by
  have cuts := blockwise.cut_pass instructions standard
  cases instructions with
  | nil => simp [blockwise.nil, split, onBlock]
  | cons first rest =>
      by_cases dest : first.op.kind = .jumpDest
      · -- A jump destination at the very start stays in the first block.
        have cutsRest := blockwise.cut_pass rest (List.forall_mem_cons.mp standard).2
        rw [blockwise.cons_dest dest standard]
        simp only [split, cutsRest, List.map_cons, onBlock]
        rw [blockwise.cons_dest dest (forall_mem_cons_cut standard)]
      · have leads : (cut (first :: rest)).1 ≠ [] := by
          simp [cut, Opcode.isJumpDest, dest]
        have leadsPass : (cut (pass (first :: rest))).1 ≠ [] := by
          rw [cuts]
          exact blockwise.nonempty _ leads
        rw [split_eq_cut leads, split_eq_cut leadsPass, cuts]
        rfl

end Blockwise

/-- Blocks after the first one start at offsets of the stream. -/
theorem sublist_offset_cut (instructions : List Instruction) :
    ((cut instructions).2.map Block.offset).Sublist (instructions.map Instruction.offset) := by
  induction instructions with
  | nil => exact .slnil
  | cons instruction rest ih =>
      simp only [cut, List.map_cons]
      split
      · exact ih.cons_cons _
      · exact ih.cons _

/-- Blocks stand in the order of their offsets. -/
theorem pairwise_offset_split {instructions : List Instruction}
    (ordered : instructions.Pairwise (·.offset < ·.offset)) :
    ((split instructions).map Block.offset).Pairwise (· < ·) := by
  cases instructions with
  | nil => simp [split]
  | cons first rest =>
      have sublist := sublist_offset_cut rest
      rw [List.pairwise_cons] at ordered
      apply List.Pairwise.cons
      · intro offset member
        obtain ⟨instruction, later, rfl⟩ := List.mem_map.mp (sublist.subset member)
        exact Nat.lt_of_le_of_lt (Nat.zero_le _) (ordered.1 instruction later)
      · exact (List.pairwise_map.mpr ordered.2).sublist sublist

end Block

end EvmLift
