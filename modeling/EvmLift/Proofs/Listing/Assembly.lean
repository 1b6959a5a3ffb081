import EvmLift.Listing.Assembly
import EvmLift.Proofs.Blocks
import EvmLift.Proofs.Mnemonics
import EvmLift.Proofs.Text

/-!
# The assembly listing loses nothing

A listing is read back line by line. The lines of instructions are those that begin with a
bracket, and each is cut at the closing bracket, at the first blank behind its mnemonic and
at the bar in front of its constants. Mnemonics of assigned opcodes differ, so the rows tell
what was decoded, and whole code is written again by what it decodes to.
-/

namespace EvmLift

namespace Instruction

variable {instruction other : Instruction}

/-- An instruction as decoding leaves it, whose opcode is assigned. -/
structure Assigned (instruction : Instruction) : Prop extends instruction.Plain where
  listed : instruction.op ∈ Opcode.assigned

/-- A row without colour, with the places where it is cut. -/
theorem toList_row (instruction : Instruction) :
    (instruction.row false).toList =
      '[' :: (instruction.offsetColumn.toList ++ ']' :: ' ' :: '|' :: ' ' ::
        (instruction.op.mnemonic.toList ++ ' ' ::
          (List.replicate (mnemonicWidth - instruction.op.mnemonic.toList.length) ' ' ++
            '|' :: instruction.constantsColumn.toList))) := by
  -- The blank in front of the bar is the first of those that fill the column up.
  have blanks (count : Nat) (rest : List Char) :
      List.replicate count ' ' ++ ' ' :: rest = ' ' :: (List.replicate count ' ' ++ rest) := by
    rw [List.append_cons, ← List.replicate_succ', List.replicate_succ, List.cons_append]
  simp [row, Paint.apply, mnemonicColumn, List.rightpad, blanks]

/-- Offsets are written with digits, the mark of hexadecimal notation and blanks. -/
theorem not_mem_offsetColumn {character : Char} (noDigit : Hex.digit? character = none)
    (noMark : character ≠ 'x') (noBlank : character ≠ ' ') (instruction : Instruction) :
    character ∉ instruction.offsetColumn.toList := by
  have noZero : character ≠ '0' := by
    rintro rfl
    cases noDigit
  simp [offsetColumn, Hex.padded, List.leftpad, noZero, noMark, noBlank,
    Hex.not_mem_digits noDigit]

theorem constantsColumn_of_constants {word : Word} (carried : instruction.constants = some [word]) :
    instruction.constantsColumn.toList = ' ' :: '0' :: 'x' :: Hex.digits word.toNat := by
  simp [constantsColumn, carried, Text.commaSeparated]

theorem constantsColumn_of_bare (bare : instruction.constants = none) :
    instruction.constantsColumn.toList = [] := by
  simp [constantsColumn, bare]

namespace Assigned

/-- The row of an instruction is one line. -/
theorem not_mem_row (assigned : instruction.Assigned) :
    '\n' ∉ (instruction.row false).toList := by
  have offset : '\n' ∉ instruction.offsetColumn.toList :=
    not_mem_offsetColumn (by decide) (by decide) (by decide) instruction
  have constants : '\n' ∉ instruction.constantsColumn.toList := by
    by_cases push : instruction.op.kind = .push
    · rcases assigned.pushed push with ⟨word, carried⟩
      have digits : '\n' ∉ Hex.digits word.toNat := Hex.not_mem_digits (by decide) _
      simp [constantsColumn_of_constants carried, digits]
    · simp [constantsColumn_of_bare (assigned.bare push)]
  rw [toList_row]
  simp [offset, constants, (Opcode.not_mem_mnemonic_of_mem_assigned _ assigned.listed).2]

/-- With the same opcode, the column of constants tells the constants. -/
theorem constants_eq (assigned : instruction.Assigned) (assigned' : other.Assigned)
    (op : instruction.op = other.op)
    (same : instruction.constantsColumn.toList = other.constantsColumn.toList) :
    instruction.constants = other.constants := by
  by_cases push : instruction.op.kind = .push
  · rcases assigned.pushed push with ⟨word, carried⟩
    rcases assigned'.pushed (op ▸ push) with ⟨word', carried'⟩
    rw [constantsColumn_of_constants carried, constantsColumn_of_constants carried'] at same
    simp only [List.cons.injEq, true_and, Hex.digits_inj, BitVec.toNat_inj] at same
    rw [carried, carried', same]
  · rw [assigned.bare push, assigned'.bare (op ▸ push)]

/-- A row tells the opcode and the constants of its instruction. -/
theorem eq_of_row_eq (assigned : instruction.Assigned) (assigned' : other.Assigned)
    (same : (instruction.row false).toList = (other.row false).toList) :
    instruction.op = other.op ∧ instruction.constants = other.constants := by
  have bracket (instruction : Instruction) : ']' ∉ instruction.offsetColumn.toList :=
    not_mem_offsetColumn (by decide) (by decide) (by decide) instruction
  have blank := (Opcode.not_mem_mnemonic_of_mem_assigned _ assigned.listed).1
  have blank' := (Opcode.not_mem_mnemonic_of_mem_assigned _ assigned'.listed).1
  have bar (count : Nat) : '|' ∉ List.replicate count ' ' := by simp
  rw [toList_row, toList_row] at same
  simp only [List.cons.injEq, true_and, Text.append_cons_inj (bracket _) (bracket _),
    Text.append_cons_inj blank blank', Text.append_cons_inj (bar _) (bar _)] at same
  rcases same with ⟨_, mnemonics, _, constants⟩
  have op : instruction.op = other.op :=
    Opcode.eq_of_mnemonic_eq assigned.listed assigned'.listed (String.toList_inj.mp mnemonics)
  exact ⟨op, assigned.constants_eq assigned' op constants⟩

end Assigned

/-- Rows tell how their instructions are written as code. -/
theorem encodeAll_eq_of_rows_eq {instructions others : List Instruction}
    (assigned : ∀ instruction ∈ instructions, instruction.Assigned)
    (assigned' : ∀ instruction ∈ others, instruction.Assigned)
    (same : (instructions.map fun instruction => (instruction.row false).toList) =
      others.map fun instruction => (instruction.row false).toList) :
    encodeAll instructions = encodeAll others := by
  have written : instructions.map encode = others.map encode := by
    apply Text.map_eq_of_map_eq _ same
    intro instruction member other member' row
    rcases (assigned instruction member).eq_of_row_eq (assigned' other member') row with
      ⟨op, constants⟩
    simp [encode, pushed?, op, constants]
  rw [encodeAll, encodeAll, List.flatMap_def, List.flatMap_def, written]

end Instruction

namespace Block

/-- Reads the rows of instructions from a listing: its lines that begin with a bracket. -/
def rows (text : String) : List (List Char) :=
  (text.toList.splitOn '\n').filter fun line => line.head? = some '['

theorem filter_lines (block : Block) :
    ((block.lines false).map String.toList).filter (fun line => line.head? = some '[') =
      block.instructions.map fun instruction => (instruction.row false).toList := by
  simp [lines, header, Paint.apply, List.filter_append, List.filter_map, Function.comp_def,
    Instruction.toList_row]

theorem not_mem_header (block : Block) : '\n' ∉ (block.header false).toList := by
  have digits : '\n' ∉ Hex.digits block.offset := Hex.not_mem_digits (by decide) _
  simp [header, Paint.apply, digits]

theorem not_mem_lines {block : Block}
    (assigned : ∀ instruction ∈ block.instructions, instruction.Assigned) :
    ∀ line ∈ block.lines false, '\n' ∉ line.toList := by
  simp only [lines, List.mem_cons, List.mem_append, List.mem_map, List.not_mem_nil, or_false]
  rintro _ (rfl | ⟨instruction, placed, rfl⟩ | rfl)
  · exact not_mem_header block
  · exact (assigned instruction placed).not_mem_row
  · simp

/-- The rows of a listing are those of the instructions, in order. -/
theorem rows_listing {blocks : List Block}
    (assigned : ∀ instruction ∈ blocks.flatMap Block.instructions, instruction.Assigned) :
    rows (listing false blocks) =
      (blocks.flatMap Block.instructions).map fun instruction =>
        (instruction.row false).toList := by
  cases blocks with
  -- An empty listing has one line, which is empty and no row.
  | nil => decide
  | cons first others =>
      have single : ∀ line ∈ ((first :: others).flatMap (lines false)).map String.toList,
          '\n' ∉ line := by
        intro line member
        rcases List.mem_map.mp member with ⟨text, printed, rfl⟩
        rcases List.mem_flatMap.mp printed with ⟨block, listed, member⟩
        apply not_mem_lines _ text member
        intro instruction placed
        exact assigned instruction (List.mem_flatMap.mpr ⟨block, listed, placed⟩)
      have split := List.splitOn_intercalate '\n' single (by simp [lines])
      rw [rows, listing, String.toList_intercalate]
      change List.filter _ ((['\n'].intercalate _).splitOn '\n') = _
      rw [split, List.map_flatMap, List.filter_flatMap, List.map_flatMap]
      simp only [filter_lines]

end Block

namespace Bytecode

/-- Code in which every instruction has an assigned opcode. -/
def Assigned (code : Bytecode) : Prop :=
  ∀ instruction ∈ code.decode, instruction.op ∈ Opcode.assigned

/-- The listing of whole code with assigned opcodes tells the code. -/
theorem listing_eq_iff {first second : Bytecode} (whole : first.Whole) (whole' : second.Whole)
    (assigned : first.Assigned) (assigned' : second.Assigned) :
    Block.listing false (Block.split first.decode) =
        Block.listing false (Block.split second.decode) ↔
      first = second := by
  have decoded {code : Bytecode} (assigned : code.Assigned) :
      ∀ instruction ∈ (Block.split code.decode).flatMap Block.instructions,
        instruction.Assigned := by
    intro instruction member
    rw [Block.flatMap_split] at member
    exact ⟨plain_of_mem_decode instruction member, assigned instruction member⟩
  constructor
  · intro same
    have rows := congrArg Block.rows same
    rw [Block.rows_listing (decoded assigned), Block.rows_listing (decoded assigned')] at rows
    have encoded := Instruction.encodeAll_eq_of_rows_eq (decoded assigned) (decoded assigned') rows
    rw [Block.flatMap_split, Block.flatMap_split] at encoded
    calc first
      _ = Instruction.encodeAll first.decode := (whole.encodeAll_decodeFrom 0).symm
      _ = Instruction.encodeAll second.decode := encoded
      _ = second := whole'.encodeAll_decodeFrom 0
  · rintro rfl
    rfl

/-- The same number pushed with one byte and with two. -/
theorem listing_ne_of_width :
    Block.listing false (Block.split (decode [0x60, 0x01])) ≠
      Block.listing false (Block.split (decode [0x61, 0x00, 0x01])) := by
  have narrow : Whole [0x60, 0x01] := @Whole.cons 0x60 [0x01] [] (by decide +kernel) .nil
  have wide : Whole [0x61, 0x00, 0x01] :=
    @Whole.cons 0x61 [0x00, 0x01] [] (by decide +kernel) .nil
  have assigned : Assigned [0x60, 0x01] ∧ Assigned [0x61, 0x00, 0x01] := by
    unfold Assigned
    decide +kernel
  rw [ne_eq, listing_eq_iff narrow wide assigned.1 assigned.2]
  decide

end Bytecode

end EvmLift
