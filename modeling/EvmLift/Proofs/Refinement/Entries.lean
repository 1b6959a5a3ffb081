import EvmLift.Proofs.Blocks
import EvmLift.Proofs.Linking.Signatures
import EvmLift.Proofs.Machine.Code
import Mathlib.Data.List.TakeWhile

/-!
# Where jumps arrive

A jump of the code machine goes on with the instructions of some block and of all blocks after
it. Linking finds the routine of that block by its offset, and the program machine finds it
by its name. Blocks and routines correspond by their positions.
-/

namespace EvmLift

namespace Block

/-- What is left of a stream from a jump destination on are the blocks from there on. -/
theorem dropWhile_eq_flatMap_cut (offset : Nat) (instructions : List Instruction) :
    instructions.dropWhile (fun instruction =>
        !(instruction.op.isJumpDest && instruction.offset = offset)) =
      ((cut instructions).2.dropWhile fun block => block.offset != offset).flatMap
        Block.instructions := by
  have skips : ∀ leading rest, Instruction.Unmarked leading →
      (leading ++ rest).dropWhile (fun instruction =>
          !(instruction.op.isJumpDest && instruction.offset = offset)) =
        rest.dropWhile fun instruction =>
          !(instruction.op.isJumpDest && instruction.offset = offset) := by
    intro leading rest unmarked
    apply List.dropWhile_append_of_pos
    intro instruction member
    simp [Opcode.isJumpDest, unmarked instruction member]
  induction instructions using Instruction.dest_induction with
  | unmarked leading unmarked => simpa [cut_of_unmarked unmarked] using skips leading [] unmarked
  | marked leading dest rest unmarked kind ih =>
      rw [skips leading _ unmarked, cut_append_dest unmarked kind]
      by_cases found : dest.offset = offset
      · simp [Opcode.isJumpDest, kind, found, cut_append]
      · simp only [List.dropWhile_cons, ih]
        simp [found]

/-- There is a first block, and it starts at offset zero. -/
theorem exists_split_eq_cons (instructions : List Instruction) :
    ∃ first rest, split instructions = first :: rest ∧ first.offset = 0 := by
  cases instructions <;> exact ⟨_, _, rfl, rfl⟩

theorem instructions_ne_nil_of_mem_cut {instructions : List Instruction} :
    ∀ block ∈ (cut instructions).2, block.instructions ≠ [] := by
  induction instructions with
  | nil => simp [cut]
  | cons instruction rest ih =>
      simp only [cut]
      split
      · exact List.forall_mem_cons.mpr ⟨by simp, ih⟩
      · exact ih

/-- Blocks of a stream that is not empty are not empty. -/
theorem instructions_ne_nil {instructions : List Instruction} (nonempty : instructions ≠ []) :
    ∀ block ∈ split instructions, block.instructions ≠ [] := by
  obtain ⟨first, rest, rfl⟩ := List.exists_cons_of_ne_nil nonempty
  exact List.forall_mem_cons.mpr ⟨by simp, instructions_ne_nil_of_mem_cut⟩

theorem drop_eq_cons {blocks : List Block} {index : Nat} {block : Block}
    (listed : blocks[index]? = some block) :
    blocks.drop index = block :: blocks.drop (index + 1) := by
  obtain ⟨inside, rfl⟩ := List.getElem?_eq_some_iff.mp listed
  exact List.drop_eq_getElem_cons inside

theorem dropWhile_eq_drop {blocks : List Block}
    (ordered : (blocks.map Block.offset).Pairwise (· < ·)) {index : Nat} {block : Block}
    (listed : blocks[index]? = some block) :
    (blocks.dropWhile fun other => other.offset != block.offset) = blocks.drop index := by
  induction blocks generalizing index with
  | nil => cases listed
  | cons first rest ih =>
      rw [List.map_cons, List.pairwise_cons] at ordered
      cases index with
      | zero =>
          cases listed
          simp
      | succ index =>
          have later : block.offset ∈ rest.map Block.offset :=
            List.mem_map_of_mem (List.mem_of_getElem? listed)
          have different := Nat.ne_of_lt (ordered.1 _ later)
          rw [List.dropWhile_cons_of_pos (by simpa using different), ih ordered.2 listed]
          rfl

end Block

namespace CodeState

variable {code : List Instruction}

/-- A stream as decoding leaves it: in order, and starting at offset zero. -/
structure Laid (code : List Instruction) : Prop where
  ordered : code.Pairwise (·.offset < ·.offset)
  start : ∀ first rest, code = first :: rest → first.offset = 0

/-- What is left of code from a jump destination on are its blocks from there on. -/
theorem Laid.dropWhile_eq (laid : Laid code) {offset : Nat} (positive : offset ≠ 0) :
    code.dropWhile (fun instruction =>
        !(instruction.op.isJumpDest && instruction.offset = offset)) =
      ((Block.split code).dropWhile fun block => block.offset != offset).flatMap
        Block.instructions := by
  cases code with
  | nil => simp [Block.split, positive.symm]
  | cons first rest =>
      have start : first.offset ≠ offset := laid.start first rest rfl ▸ positive.symm
      simp only [Block.split]
      rw [List.dropWhile_cons_of_pos (by simp [start]),
        List.dropWhile_cons_of_pos (by simpa using positive.symm), Block.dropWhile_eq_flatMap_cut]

/-- A jump to the offset of a block goes on with that block. -/
theorem Laid.enter?_eq_some (laid : Laid code) {index : Nat} {block : Block}
    (listed : (Block.split code)[index]? = some block) :
    enter? code block.offset =
      some (((Block.split code).drop index).flatMap Block.instructions) := by
  have dropped := Block.dropWhile_eq_drop (Block.pairwise_offset_split laid.ordered) listed
  by_cases start : block.offset = 0
  · obtain ⟨first, rest, split, zero⟩ := Block.exists_split_eq_cons code
    rw [start, split, List.dropWhile_cons_of_neg (by simp [zero]), ← split] at dropped
    rw [enter?, if_pos start, ← dropped, Block.flatMap_split]
  · rw [enter?, if_neg start, laid.dropWhile_eq start, dropped]
    have nonempty : code ≠ [] := by
      rintro rfl
      have first := List.mem_of_getElem? listed
      rw [Block.split, List.mem_singleton] at first
      exact start (congrArg Block.offset first)
    have filled := Block.instructions_ne_nil nonempty block (List.mem_of_getElem? listed)
    obtain ⟨head, tail, equal⟩ := List.exists_cons_of_ne_nil filled
    rw [Block.drop_eq_cons listed, List.flatMap_cons, equal]
    rfl

/-- A jump to any other offset goes nowhere. -/
theorem Laid.enter?_eq_none (laid : Laid code) {offset : Nat}
    (missing : ∀ block ∈ Block.split code, block.offset ≠ offset) :
    enter? code offset = none := by
  obtain ⟨first, rest, split, zero⟩ := Block.exists_split_eq_cons code
  have positive : offset ≠ 0 := zero ▸ (missing first (by simp [split])).symm
  have none : ((Block.split code).dropWhile fun block => block.offset != offset) = [] := by
    simpa using missing
  rw [enter?, if_neg positive, laid.dropWhile_eq positive, none]
  rfl

end CodeState

namespace Block

/-- The routine of a block stands at the place of the block, and is named for it. -/
theorem exists_getElem?_routines {supply : Supply} {blocks : List Block} {index : Nat}
    {block : Block} (listed : blocks[index]? = some block) :
    ∃ own, own.nextRoutine = supply.nextRoutine + index ∧
      (routines supply blocks)[index]? = some (block.routine own) := by
  induction blocks generalizing supply index with
  | nil => cases listed
  | cons first rest ih =>
      cases index with
      | zero =>
          cases listed
          exact ⟨supply, rfl, rfl⟩
      | succ index =>
          obtain ⟨own, next, found⟩ :
              ∃ own, own.nextRoutine = (first.remaining supply).nextRoutine + index ∧
                (routines (first.remaining supply) rest)[index]? = some (block.routine own) :=
            ih listed
          refine ⟨own, ?_, found⟩
          have used : (first.remaining supply).nextRoutine = supply.nextRoutine + 1 := rfl
          omega

theorem length_routines (supply : Supply) (blocks : List Block) :
    (routines supply blocks).length = blocks.length := by
  induction blocks generalizing supply with
  | nil => rfl
  | cons block rest ih => exact congrArg Nat.succ (ih _)

end Block

namespace Routine

/-- A routine with its way to the next one made explicit, if there is a next one. -/
def chained (routine : Routine) (next? : Option Routine) : Routine :=
  (next?.map routine.continueTo).getD routine

@[simp] theorem name_chained (routine : Routine) (next? : Option Routine) :
    (routine.chained next?).name = routine.name := by
  cases next? with
  | none => rfl
  | some next =>
      simp only [chained, Option.map_some, Option.getD_some, continueTo]
      split <;> rfl

@[simp] theorem arity_chained (routine : Routine) (next? : Option Routine) :
    (routine.chained next?).arity = routine.arity := by
  cases next? with
  | none => rfl
  | some next =>
      simp only [chained, Option.map_some, Option.getD_some, continueTo]
      split <;> rfl

/-- The statements that chaining adds. -/
def onward (routine : Routine) : Option Routine → List Statement
  | some next => if routine.fallsThrough then [routine.jumpTo next] else []
  | none => []

theorem body_chained (routine : Routine) (next? : Option Routine) :
    (routine.chained next?).body = routine.body ++ routine.onward next? := by
  cases next? with
  | none => simp [chained, onward]
  | some next =>
      simp only [chained, onward, Option.map_some, Option.getD_some, continueTo]
      split <;> simp

/-- Every routine is chained to the one after it. -/
theorem getElem?_chain {routines : List Routine} {index : Nat} {routine : Routine}
    (listed : routines[index]? = some routine) :
    (chain routines)[index]? = some (routine.chained routines[index + 1]?) := by
  fun_induction chain routines generalizing index with
  | case1 first next rest ih =>
      cases index with
      | zero =>
          cases listed
          rfl
      | succ index => exact ih listed
  | case2 routines single =>
      rcases routines with _ | ⟨first, _ | ⟨next, rest⟩⟩
      · cases listed
      · cases index with
        | zero =>
            cases listed
            rfl
        | succ index => cases listed
      · exact absurd rfl (single first next rest)

theorem fallthroughWarning?_eq_none {routines : List Routine} {index : Nat}
    {routine next : Routine} (quiet : chainWarnings routines = [])
    (listed : routines[index]? = some routine) (listedNext : routines[index + 1]? = some next) :
    routine.fallthroughWarning? next = none := by
  fun_induction chainWarnings routines generalizing index with
  | case1 first second rest ih =>
      rw [List.append_eq_nil_iff] at quiet
      cases index with
      | zero =>
          cases listed
          cases listedNext
          simpa using quiet.1
      | succ index => exact ih quiet.2 listed listedNext
  | case2 routines single =>
      rcases routines with _ | ⟨first, _ | ⟨second, rest⟩⟩
      · cases listed
      · cases listedNext
      · exact absurd rfl (single first second rest)

end Routine

end EvmLift
