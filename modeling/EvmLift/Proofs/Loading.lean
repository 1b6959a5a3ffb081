import EvmLift.Bytecode.Image
import EvmLift.Proofs.Encoding

/-!
# Loaded code and its jump destinations

An image is at all times the image of some code: that of the last text that could be read. The
offsets where its instructions start are those that a walk over the code reaches, from zero on and
always over one opcode with its bytes. Its jump destinations are the marks at such offsets, so a
mark among the bytes of a push is none of them, even if the push is cut off.
-/

namespace EvmLift

namespace Opcode

theorem byte_of_isJumpDest :
    ∀ op ∈ assigned, op.isJumpDest = true → op.byte = 0x5b := by
  decide +kernel

theorem isJumpDest_ofByte_iff {byte : UInt8} : (ofByte byte).isJumpDest = true ↔ byte = 0x5b := by
  constructor
  · intro dest
    unfold ofByte at dest
    cases found : assigned.find? (fun op => op.byte = byte) with
    | none =>
        rw [found] at dest
        cases dest
    | some op =>
        rw [found] at dest
        have same : op.byte = byte := by simpa using List.find?_some found
        rw [← same]
        exact byte_of_isJumpDest op (List.mem_of_find?_eq_some found) dest
  · rintro rfl
    decide +kernel

theorem immediate_of_mark : (ofByte 0x5b).immediate = 0 := by
  decide +kernel

end Opcode

namespace Bytecode

/-- The offsets where instructions start: zero, and whatever follows an opcode with its bytes. -/
inductive Starts (code : Bytecode) : Nat → Prop where
  | zero : Starts code 0
  | next {offset : Nat} {byte : UInt8} (start : Starts code offset)
      (read : code[offset]? = some byte) :
      Starts code (offset + 1 + (Opcode.ofByte byte).immediate)

variable {code rest : Bytecode} {byte : UInt8} {offset start : Nat}

theorem getElem?_cons_behind (byte : UInt8) (rest : Bytecode) (count later : Nat) :
    (byte :: rest)[1 + count + later]? = (rest.drop count)[later]? := by
  rw [List.getElem?_drop, Nat.add_assoc, Nat.add_comm 1, List.getElem?_cons_succ]

/-- Behind the first instruction, starts are those of the code that is left. -/
theorem starts_cons_iff :
    Starts (byte :: rest) offset ↔
      offset = 0 ∨ ∃ later, offset = 1 + (Opcode.ofByte byte).immediate + later ∧
        Starts (rest.drop (Opcode.ofByte byte).immediate) later := by
  constructor
  · intro starts
    induction starts with
    | zero => exact .inl rfl
    | @next offset other _ read ih =>
        right
        rcases ih with rfl | ⟨later, rfl, starts⟩
        · cases read
          exact ⟨0, by omega, .zero⟩
        · rw [getElem?_cons_behind] at read
          exact ⟨_, by omega, .next starts read⟩
  · rintro (rfl | ⟨later, rfl, starts⟩)
    · exact .zero
    · induction starts with
      | zero =>
          have first : Starts (byte :: rest) (0 + 1 + (Opcode.ofByte byte).immediate) :=
            .next .zero rfl
          simpa using first
      | @next later other _ read ih =>
          rw [← getElem?_cons_behind byte] at read
          have following := ih.next read
          rwa [Nat.add_assoc, Nat.add_assoc, ← Nat.add_assoc later] at following

/-- No instruction starts inside another one. -/
theorem Starts.end_le (starts : code.Starts start) (read : code[start]? = some byte)
    (later : code.Starts offset) (after : start < offset) :
    start + 1 + (Opcode.ofByte byte).immediate ≤ offset := by
  induction offset using Nat.strongRecOn generalizing start byte with
  | ind offset ih =>
      cases later with
      | zero => exact absurd after (Nat.not_lt_zero _)
      | @next previous other starts' read' =>
          rcases Nat.lt_trichotomy start previous with before | rfl | behind
          · have bound := ih previous (by omega) starts read starts' before
            omega
          · rw [read] at read'
            cases read'
            exact Nat.le_refl _
          · -- The instruction before the offset would end behind the start that it comes before.
            have bound := ih start after starts' read' starts behind
            omega

/-- The marked starts of code: the first byte, and those of the code that is left. -/
theorem marked_cons_iff :
    ((byte :: rest)[offset]? = some 0x5b ∧ Starts (byte :: rest) offset) ↔
      (offset = 0 ∧ byte = 0x5b) ∨
        ∃ later, offset = 1 + (Opcode.ofByte byte).immediate + later ∧
          (rest.drop (Opcode.ofByte byte).immediate)[later]? = some 0x5b ∧
          Starts (rest.drop (Opcode.ofByte byte).immediate) later := by
  rw [starts_cons_iff]
  constructor
  · rintro ⟨read, rfl | ⟨later, rfl, starts⟩⟩
    · exact .inl ⟨rfl, Option.some.inj read⟩
    · rw [getElem?_cons_behind] at read
      exact .inr ⟨later, rfl, read, starts⟩
  · rintro (⟨rfl, rfl⟩ | ⟨later, rfl, read, starts⟩)
    · exact ⟨rfl, .inl rfl⟩
    · rw [← getElem?_cons_behind byte] at read
      exact ⟨read, .inr ⟨later, rfl, starts⟩⟩

/-- Decoding finds a jump destination exactly at the starts that are marked. -/
theorem exists_dest_decodeFrom_iff (base : Nat) (code : Bytecode) (offset : Nat) :
    (∃ instruction ∈ (decodeFrom base code).instructions,
        instruction.op.isJumpDest = true ∧ instruction.offset = base + offset) ↔
      code[offset]? = some 0x5b ∧ code.Starts offset := by
  fun_induction decodeFrom base code generalizing offset with
  | case1 => simp
  | case2 base byte rest op immediate truncated =>
      simp only [Bool.and_eq_true, decide_eq_true_eq, immediate, List.length_take] at truncated
      rw [marked_cons_iff]
      constructor
      · rintro ⟨instruction, member, dest, _⟩
        rw [List.mem_singleton.mp member] at dest
        cases dest
      · rintro (⟨_, rfl⟩ | ⟨later, _, read, _⟩)
        · simp [op, Opcode.immediate_of_mark] at truncated
        · -- The bytes of the push are all that is left.
          have nothing : rest.drop op.immediate = [] := List.drop_of_length_le (by omega)
          simp [op, nothing] at read
  | case3 base byte rest op immediate complete constants following ih =>
      have width : (Opcode.ofByte byte).immediate = op.immediate := rfl
      rw [marked_cons_iff]
      constructor
      · rintro ⟨instruction, member, dest, same⟩
        rcases List.mem_cons.mp member with rfl | member
        · exact .inl ⟨by simpa using same.symm, Opcode.isJumpDest_ofByte_iff.mp dest⟩
        · have above := le_offset_of_mem_decodeFrom _ _ instruction member
          obtain ⟨later, rfl⟩ : ∃ later, offset = 1 + op.immediate + later :=
            ⟨offset - (1 + op.immediate), by omega⟩
          exact .inr ⟨later, rfl, (ih later).mp ⟨instruction, member, dest, by omega⟩⟩
      · rintro (⟨rfl, rfl⟩ | ⟨later, rfl, marked⟩)
        · exact ⟨_, List.mem_cons_self, Opcode.isJumpDest_ofByte_iff.mpr rfl, rfl⟩
        · rcases (ih later).mpr marked with ⟨instruction, member, dest, same⟩
          exact ⟨instruction, List.mem_cons_of_mem _ member, dest, by omega⟩

/-- The code that the last readable text writes, and no code if there is no such text. -/
def lastOfHex (sources : List String) : Bytecode :=
  ((sources.filterMap fun source => (ofHex source).toOption).getLast?).getD []

end Bytecode

namespace Image

variable {code : Bytecode}

/-- An image that holds code, with its instructions and with the offsets that may be jumped to. -/
structure Holds (image : Image) (code : Bytecode) : Prop where
  loaded : image.code = code
  instructions : image.instructions = code.decode
  /-- No offset is listed twice. -/
  ascending : image.destinations.Pairwise (· < ·)
  valid : ∀ offset, offset ∈ image.destinations ↔ code[offset]? = some 0x5b ∧ code.Starts offset
  /-- The bytes that belong to an opcode are not listed, whether or not all of them are there. -/
  outside : ∀ start byte, code.Starts start → code[start]? = some byte →
    ∀ offset, start < offset → offset ≤ start + (Opcode.ofByte byte).immediate →
      offset ∉ image.destinations

theorem mem_destinations_ofBytecode {offset : Nat} :
    offset ∈ (ofBytecode code).destinations ↔ code[offset]? = some 0x5b ∧ code.Starts offset := by
  rw [← Bytecode.exists_dest_decodeFrom_iff 0]
  simp [ofBytecode, Bytecode.decode, and_assoc]

theorem holds_ofBytecode (code : Bytecode) : (ofBytecode code).Holds code where
  loaded := rfl
  instructions := rfl
  ascending := by
    have ordered := code.pairwise_offset_decode.filter fun instruction => instruction.op.isJumpDest
    exact List.pairwise_map.mpr ordered
  valid := fun _ => mem_destinations_ofBytecode
  outside := by
    intro start byte starts read offset after inside listed
    have bound := starts.end_le read (mem_destinations_ofBytecode.mp listed).2 after
    omega

theorem empty_eq : empty = ofBytecode [] := by
  simp [empty, ofBytecode, Bytecode.decode, Bytecode.decodeFrom]

/-- A text that is no code leaves the image as it is. -/
theorem load_ofBytecode (source : String) :
    (ofBytecode code).load source = ofBytecode ((Bytecode.ofHex source).toOption.getD code) := by
  unfold load ofHex
  cases Bytecode.ofHex source <;> rfl

theorem foldl_load (sources : List String) :
    sources.foldl load empty = ofBytecode (Bytecode.lastOfHex sources) := by
  induction sources using List.reverseRecOn with
  | nil => exact empty_eq
  | append_singleton sources source ih =>
      rw [List.foldl_append, ih, List.foldl_cons, List.foldl_nil, load_ofBytecode,
        Bytecode.lastOfHex, Bytecode.lastOfHex, List.filterMap_append]
      cases read : Bytecode.ofHex source <;> simp [read, Except.toOption]

/-- After any history of loads, in which some may fail, an image holds the code of the last text
that could be read. Its jump destinations are the marked offsets where instructions start, in
order. -/
theorem holds_foldl_load (sources : List String) :
    (sources.foldl load empty).Holds (Bytecode.lastOfHex sources) := by
  rw [foldl_load]
  exact holds_ofBytecode _

end Image

end EvmLift
