import EvmLift.Proofs.Failure
import EvmLift.Proofs.Refinement.Entries
import EvmLift.Proofs.Simplification.Blockwise

/-!
# Where blocks start

Code is entered at offset zero and at its jump destinations. Its blocks start at just these
offsets, whether the code is simplified or not, and the routines of the linked program are
found by them.
-/

namespace EvmLift

/-- The offsets at which code can be entered: zero, and its other jump destinations. -/
def Bytecode.entryOffsets (code : Bytecode) : List Nat :=
  0 :: ((code.decode.filter fun instruction => instruction.op.isJumpDest).map
    Instruction.offset).filter fun offset => offset ≠ 0

/-- A search that finds the position of a key among strictly increasing keys. -/
def SearchesOrdered (search : List Nat → Nat → Option Nat) : Prop :=
  ∀ keys, keys.Pairwise (· < ·) → ∀ key index,
    search keys key = some index ↔ keys[index]? = some key

/-- Looking at one key after the other is such a search. -/
theorem searchesOrdered_idxOf? : SearchesOrdered fun keys key => keys.idxOf? key := by
  intro keys ordered key index
  rw [List.idxOf?_eq_some_iff]
  constructor
  · rintro ⟨inside, same, _⟩
    exact List.getElem?_eq_some_iff.mpr ⟨inside, same⟩
  · intro placed
    rcases List.getElem?_eq_some_iff.mp placed with ⟨inside, same⟩
    refine ⟨inside, same, ?_⟩
    intro earlier before
    have below := List.pairwise_iff_getElem.mp ordered earlier index (by omega) inside before
    rw [same] at below
    exact Nat.ne_of_lt below

namespace Block

open Instruction (Unmarked)

/-- How blocks divide a stream that can be entered at the given offsets. -/
structure Divides (blocks : List Block) (stream : List Instruction) (entries : List Nat) :
    Prop where
  /-- The blocks hold the stream in order. -/
  joined : blocks.flatMap Block.instructions = stream
  /-- Only the first instruction of a block can be a jump destination. -/
  unmarked : ∀ block ∈ blocks, Unmarked block.instructions.tail
  filled : stream ≠ [] → ∀ block ∈ blocks, block.instructions ≠ []
  offsets : blocks.map Block.offset = entries

theorem unmarked_cut (instructions : List Instruction) : Unmarked (cut instructions).1 := by
  induction instructions using Instruction.dest_induction with
  | unmarked leading unmarked => rwa [cut_of_unmarked unmarked]
  | marked leading dest rest unmarked kind ih => rwa [cut_append_dest unmarked kind]

theorem unmarked_tail_of_mem_cut (instructions : List Instruction) :
    ∀ block ∈ (cut instructions).2, Unmarked block.instructions.tail := by
  induction instructions using Instruction.dest_induction with
  | unmarked leading unmarked => simp [cut_of_unmarked unmarked]
  | marked leading dest rest unmarked kind ih =>
      rw [cut_append_dest unmarked kind, List.forall_mem_cons]
      exact ⟨unmarked_cut rest, ih⟩

theorem unmarked_tail_of_mem_split (instructions : List Instruction) :
    ∀ block ∈ split instructions, Unmarked block.instructions.tail := by
  cases instructions with
  | nil => simp [split, Unmarked]
  | cons first rest =>
      rw [split, List.forall_mem_cons]
      exact ⟨unmarked_cut rest, unmarked_tail_of_mem_cut rest⟩

/-- Blocks after the first one start at the jump destinations of a stream. -/
theorem map_offset_cut (instructions : List Instruction) :
    (cut instructions).2.map Block.offset =
      (instructions.filter fun instruction => instruction.op.isJumpDest).map
        Instruction.offset := by
  induction instructions with
  | nil => rfl
  | cons instruction rest ih => cases dest : instruction.op.isJumpDest <;> simp [cut, dest, ih]

/-- The blocks of code start where it can be entered. -/
theorem map_offset_split_decode (code : Bytecode) :
    (split code.decode).map Block.offset = code.entryOffsets := by
  have ordered := code.pairwise_offset_decode
  rw [Bytecode.entryOffsets]
  cases decoded : code.decode with
  | nil => rfl
  | cons first rest =>
      rw [decoded, List.pairwise_cons] at ordered
      have start := Bytecode.offset_head_decode decoded
      -- Whatever comes after the first instruction has an offset above zero.
      have later : ((rest.filter fun instruction => instruction.op.isJumpDest).map
          Instruction.offset).filter (fun offset => offset ≠ 0) =
            (rest.filter fun instruction => instruction.op.isJumpDest).map Instruction.offset := by
        rw [List.filter_eq_self]
        intro offset member
        rcases List.mem_map.mp member with ⟨instruction, listed, rfl⟩
        have above := ordered.1 instruction (List.mem_filter.mp listed).1
        simpa using Nat.ne_of_gt (Nat.zero_lt_of_lt above)
      rw [split, List.map_cons, map_offset_cut]
      cases dest : first.op.isJumpDest with
      | true =>
          rw [List.filter_cons_of_pos (by simp [dest]), List.map_cons,
            List.filter_cons_of_neg (by simp [start]), later]
      | false =>
          rw [List.filter_cons_of_neg (by simp [dest]), later]

/-- Simplified or not, code has its blocks at the same offsets. -/
theorem map_offset_split (options : Options) (code : Bytecode) :
    (split (options.instructions code)).map Block.offset = code.entryOffsets := by
  rw [← map_offset_split_decode code, Options.instructions]
  split
  · rw [Blockwise.blockwise_simplify.split_pass _ Bytecode.standard_of_mem_decode, List.map_map]
    apply List.map_congr_left
    intro block _
    exact Blockwise.offset_onBlock block
  · rfl

theorem divides_split (options : Options) (code : Bytecode) :
    Divides (split (options.instructions code)) (options.instructions code)
      code.entryOffsets where
  joined := flatMap_split _
  unmarked := unmarked_tail_of_mem_split _
  filled := instructions_ne_nil
  offsets := map_offset_split options code

end Block

namespace Bytecode

theorem pairwise_entryOffsets (code : Bytecode) : code.entryOffsets.Pairwise (· < ·) := by
  rw [← Block.map_offset_split_decode]
  exact Block.pairwise_offset_split code.pairwise_offset_decode

theorem mem_entryOffsets {code : Bytecode} {offset : Nat} :
    offset ∈ code.entryOffsets ↔
      offset = 0 ∨ ∃ instruction ∈ code.decode,
        instruction.op.isJumpDest = true ∧ instruction.offset = offset := by
  simp only [entryOffsets, List.mem_cons, List.mem_filter, List.mem_map]
  constructor
  · rintro (zero | ⟨⟨instruction, ⟨listed, dest⟩, same⟩, _⟩)
    · exact .inl zero
    · exact .inr ⟨instruction, listed, dest, same⟩
  · rintro (zero | ⟨instruction, listed, dest, same⟩)
    · exact .inl zero
    · by_cases zero : offset = 0
      · exact .inl zero
      · exact .inr ⟨⟨instruction, ⟨listed, dest⟩, same⟩, by simpa using zero⟩

end Bytecode

namespace Program

variable {program : Program}

/-- The routine of an offset is there if some routine starts at the offset. -/
theorem exists_atOffset?_iff {offset : Nat} :
    (∃ routine, program.atOffset? offset = some routine) ↔
      offset ∈ program.routines.map Routine.offset := by
  rw [← Option.isSome_iff_exists, atOffset?, List.find?_isSome, List.mem_map]
  simp only [decide_eq_true_eq]

/-- Among routines in the order of their offsets a search for the offset finds the routine. -/
theorem atOffset?_eq_search {search : List Nat → Nat → Option Nat}
    (searches : SearchesOrdered search)
    (ordered : (program.routines.map Routine.offset).Pairwise (· < ·)) (offset : Nat) :
    program.atOffset? offset =
      (search (program.routines.map Routine.offset) offset).bind (program.routines[·]?) := by
  have right := searches _ ordered offset
  have distinct : (program.routines.map Routine.offset).Nodup := ordered.imp Nat.ne_of_lt
  apply Option.ext
  intro routine
  rw [atOffset?_eq_some_iff distinct, Option.bind_eq_some_iff]
  constructor
  · rintro ⟨member, rfl⟩
    rcases List.mem_iff_getElem?.mp member with ⟨index, placed⟩
    exact ⟨index, (right index).mpr (by rw [List.getElem?_map, placed]; rfl), placed⟩
  · rintro ⟨index, found, placed⟩
    have same := (right index).mp found
    rw [List.getElem?_map, placed] at same
    exact ⟨List.mem_of_getElem? placed, Option.some.inj same⟩

/-- Linking leaves routines where they are. -/
theorem map_offset_chain_numbered (program : Program) :
    (Routine.chain program.numbered).map Routine.offset =
      program.routines.map Routine.offset := by
  have offsets := congrArg (List.map Prod.fst) program.map_signature_chain_numbered
  rwa [List.map_map, List.map_map] at offsets

end Program

/-- Blocks start exactly where code can be entered, whether it is simplified or not: they hold
the stream in order, are marked at most at their start, and are not empty unless the stream is.
The linked program has a routine for just these offsets, and any search that is right on
increasing keys finds it. -/
theorem entries_of_split (options : Options) (code : Bytecode) :
    Block.Divides (Block.split (options.instructions code)) (options.instructions code)
        code.entryOffsets ∧
      code.entryOffsets.Pairwise (· < ·) ∧
      ∃ linked, decompileBlocks (Block.split (options.instructions code)) = .ok linked ∧
        (∀ offset, (∃ routine, linked.program.atOffset? offset = some routine) ↔
          offset = 0 ∨ ∃ instruction ∈ code.decode,
            instruction.op.isJumpDest = true ∧ instruction.offset = offset) ∧
        (∀ offset routine, linked.program.atOffset? offset = some routine →
          routine.offset = offset) ∧
        ∀ search, SearchesOrdered search → ∀ offset,
          linked.program.atOffset? offset =
            (search (linked.program.routines.map Routine.offset) offset).bind
              (linked.program.routines[·]?) := by
  have standard := Block.forall_mem_split (options.standard_instructions code)
  have links := (Block.scoped_routines standard).link_eq
  have offsets := Program.map_offset_chain_numbered
    ⟨Block.routines {} (Block.split (options.instructions code))⟩
  rw [Block.map_offset_routines, Block.map_offset_split] at offsets
  refine ⟨Block.divides_split options code, code.pairwise_entryOffsets, _,
    Block.decompileBlocks_eq standard links, ?_, ?_, ?_⟩
  · intro offset
    rw [Program.exists_atOffset?_iff, offsets, Bytecode.mem_entryOffsets]
  · intro offset routine found
    simpa using List.find?_some found
  · intro search searches offset
    exact Program.atOffset?_eq_search searches (offsets ▸ code.pairwise_entryOffsets) offset

/-- A jump over nothing, whose push disappears from the start of the code. -/
theorem entries_of_split_fused :
    SearchesOrdered (fun keys key => keys.idxOf? key) ∧
      ∃ linked routine,
        decompileBlocks (Block.split (Options.instructions {} [0x60, 3, 0x56, 0x5b, 0x00])) =
          .ok linked ∧
        linked.program.atOffset? 3 = some routine ∧ routine.offset = 3 ∧
        ((linked.program.routines.map Routine.offset).idxOf? 3).bind
          (linked.program.routines[·]?) = some routine := by
  rcases entries_of_split {} [0x60, 3, 0x56, 0x5b, 0x00] with
    ⟨_, _, linked, decompiles, entered, offsets, search⟩
  have dest : ∃ instruction ∈ Bytecode.decode [0x60, 3, 0x56, 0x5b, 0x00],
      instruction.op.isJumpDest = true ∧ instruction.offset = 3 := by
    decide +kernel
  rcases (entered 3).mpr (.inr dest) with ⟨routine, found⟩
  refine ⟨searchesOrdered_idxOf?, linked, routine, decompiles, found, offsets 3 routine found, ?_⟩
  rw [← search _ searchesOrdered_idxOf? 3]
  exact found

end EvmLift
