import EvmLift.Proofs.Standard
import Mathlib.Algebra.Ring.Nat
import Mathlib.Data.List.Induction

/-!
# Writing instructions as code

An instruction is written as its byte and, for a push, the bytes of its constant. Code that
holds whole instructions is written again by what it decodes to, and written instructions
decode to themselves, at the offsets where they were written. Code that a push runs out of
decodes to the instructions before that push and one fault in its place.
-/

namespace EvmLift

namespace Word

/-- The last `width` digits of a number in base 256, in big-endian order. -/
def digits : Nat → Nat → List UInt8
  | 0, _ => []
  | width + 1, value => digits width (value / 256) ++ [UInt8.ofNat value]

/-- The bytes of a word in big-endian order, from the last `width` of them on. -/
def toBytes (width : Nat) (value : Word) : List UInt8 :=
  digits width value.toNat

@[simp] theorem length_digits (width value : Nat) : (digits width value).length = width := by
  induction width generalizing value with
  | zero => rfl
  | succ width ih => simp [digits, ih]

@[simp] theorem length_toBytes (width : Nat) (value : Word) :
    (toBytes width value).length = width :=
  length_digits width value.toNat

theorem natOfBytes_concat (bytes : List UInt8) (last : UInt8) :
    natOfBytes (bytes ++ [last]) = natOfBytes bytes * 256 + last.toNat := by
  simp [natOfBytes]

theorem natOfBytes_lt (bytes : List UInt8) : natOfBytes bytes < 256 ^ bytes.length := by
  induction bytes using List.reverseRecOn with
  | nil => decide
  | append_singleton bytes last ih =>
      have bound := last.toNat_lt
      rw [natOfBytes_concat, List.length_append, List.length_singleton, Nat.pow_succ]
      omega

theorem natOfBytes_digits (width value : Nat) :
    natOfBytes (digits width value) = value % 256 ^ width := by
  induction width generalizing value with
  | zero => simp [digits, natOfBytes, Nat.mod_one]
  | succ width ih =>
      have split : 256 ^ (width + 1) = 256 * 256 ^ width := by rw [Nat.pow_succ, Nat.mul_comm]
      rw [digits, natOfBytes_concat, ih, UInt8.toNat_ofNat', split, Nat.mod_mul]
      omega

theorem digits_natOfBytes (bytes : List UInt8) :
    digits bytes.length (natOfBytes bytes) = bytes := by
  induction bytes using List.reverseRecOn with
  | nil => rfl
  | append_singleton bytes last ih =>
      have bound := last.toNat_lt
      have others : (natOfBytes bytes * 256 + last.toNat) / 256 = natOfBytes bytes := by omega
      have lowest : UInt8.ofNat (natOfBytes bytes * 256 + last.toNat) = last := by
        apply UInt8.toNat_inj.mp
        rw [UInt8.toNat_ofNat']
        omega
      rw [natOfBytes_concat, List.length_append, List.length_singleton, digits, others, lowest, ih]

/-- A constant that fits its width is read back. -/
theorem ofBytes_toBytes {width : Nat} {value : Word} (fits : value.toNat < 256 ^ width) :
    ofBytes (toBytes width value) = value := by
  rw [ofBytes, toBytes, natOfBytes_digits, Nat.mod_eq_of_lt fits, BitVec.ofNat_toNat,
    BitVec.setWidth_eq]

/-- The bytes of a constant are written again. -/
theorem toBytes_ofBytes {bytes : List UInt8} (short : bytes.length ≤ 32) :
    toBytes bytes.length (ofBytes bytes) = bytes := by
  have bound : natOfBytes bytes < 2 ^ 256 := by
    apply Nat.lt_of_lt_of_le (natOfBytes_lt bytes)
    exact Nat.pow_le_pow_right (by decide : 0 < 256) short
  rw [toBytes, ofBytes, BitVec.toNat_ofNat, Nat.mod_eq_of_lt bound, digits_natOfBytes]

end Word

namespace Opcode

theorem byte_ofByte (byte : UInt8) : (ofByte byte).byte = byte := by
  unfold ofByte
  cases found : assigned.find? (fun op => op.byte = byte) with
  | none => rfl
  | some op => simpa using List.find?_some found

/-- The bytes that may follow an opcode: a word at most, and none if it is no push. -/
theorem immediate_of_mem_assigned :
    ∀ op ∈ assigned, op.immediate ≤ 32 ∧ (op.isPush = false → op.immediate = 0) := by
  decide +kernel

theorem immediate_ofByte (byte : UInt8) :
    (ofByte byte).immediate ≤ 32 ∧
      ((ofByte byte).isPush = false → (ofByte byte).immediate = 0) := by
  unfold ofByte
  cases found : assigned.find? (fun op => op.byte = byte) with
  | none => exact ⟨Nat.zero_le _, fun _ => rfl⟩
  | some op => exact immediate_of_mem_assigned op (List.mem_of_find?_eq_some found)

theorem ofByte_mem_all (byte : UInt8) : ofByte byte ∈ all := by
  rw [all, List.mem_map]
  exact ⟨byte.toNat, List.mem_range.mpr byte.toNat_lt, by rw [UInt8.ofNat_toNat]⟩

/-- The opcodes of the table are those of their own bytes. -/
theorem ofByte_byte {op : Opcode} (listed : op ∈ all) : ofByte op.byte = op := by
  rw [all, List.mem_map] at listed
  rcases listed with ⟨byte, _, rfl⟩
  rw [byte_ofByte]

theorem standard_of_mem_all {op : Opcode} (listed : op ∈ all) : op.Standard := by
  rw [← ofByte_byte listed]
  exact standard_ofByte _

end Opcode

namespace Instruction

/-- An instruction as code: its byte, and the bytes of the constant that it pushes. -/
def encode (instruction : Instruction) : Bytecode :=
  instruction.op.byte ::
    match instruction.pushed? with
    | some word => word.toBytes instruction.op.immediate
    | none => []

/-- Instructions as code, one after the other. -/
def encodeAll (instructions : List Instruction) : Bytecode :=
  instructions.flatMap encode

/-- Instructions moved to where they are written, from an offset on. -/
def place (offset : Nat) : List Instruction → List Instruction
  | [] => []
  | instruction :: rest =>
      { instruction with offset } :: place (offset + instruction.encode.length) rest

/-- An instruction of the table that can be written: a push has one constant that fits into
its bytes, and nothing else has constants. -/
structure Encodable (instruction : Instruction) : Prop where
  op : instruction.op ∈ Opcode.all
  push : instruction.op.isPush = true →
    ∃ word, instruction.constants = some [word] ∧ word.toNat < 256 ^ instruction.op.immediate
  bare : instruction.op.isPush = false → instruction.constants = none

@[simp] theorem encodeAll_nil : encodeAll [] = [] := rfl

@[simp] theorem encodeAll_cons (instruction : Instruction) (rest : List Instruction) :
    encodeAll (instruction :: rest) = instruction.encode ++ encodeAll rest := rfl

/-- The offset of a placed instruction counts the code before it. -/
theorem offset_place {offset : Nat} {instructions front back : List Instruction}
    {next : Instruction} (placed : place offset instructions = front ++ next :: back) :
    next.offset = offset + (encodeAll front).length := by
  induction instructions generalizing offset front with
  | nil => simp [place] at placed
  | cons instruction rest ih =>
      cases front with
      | nil =>
          rcases List.cons.inj placed with ⟨rfl, _⟩
          rfl
      | cons first front =>
          rcases List.cons.inj placed with ⟨rfl, later⟩
          have counted := ih later
          -- The code of an instruction does not depend on its offset.
          change next.offset = offset + (instruction.encode ++ encodeAll front).length
          rw [List.length_append]
          omega

end Instruction

namespace Bytecode

/-- Decoding yields opcodes of the table only. -/
theorem listed_of_mem_decodeFrom (offset : Nat) (code : Bytecode) :
    ∀ instruction ∈ (decodeFrom offset code).instructions, instruction.op ∈ Opcode.all := by
  fun_induction decodeFrom offset code with
  | case1 => simp
  | case2 offset byte rest op immediate truncated =>
      have invalid : Opcode.ofByte 0xfe = .invalid := by decide +kernel
      simp [← invalid, Opcode.ofByte_mem_all]
  | case3 offset byte rest op immediate complete constants following ih =>
      rw [List.forall_mem_cons]
      exact ⟨Opcode.ofByte_mem_all byte, ih⟩

/-- Code that no push runs out of: every opcode is followed by all of its bytes. -/
inductive Whole : Bytecode → Prop where
  | nil : Whole []
  | cons (byte : UInt8) {immediate rest : Bytecode}
      (size : immediate.length = (Opcode.ofByte byte).immediate) (following : Whole rest) :
      Whole (byte :: (immediate ++ rest))

/-- A push with fewer bytes after it than belong to it. -/
structure CutOff (byte : UInt8) (tail : Bytecode) : Prop where
  push : (Opcode.ofByte byte).isPush = true
  short : tail.length < (Opcode.ofByte byte).immediate

/-- The bytes of an opcode follow it, unless it is a push that is cut off. -/
theorem cutOff_or_exists_append (byte : UInt8) (rest : Bytecode) :
    CutOff byte rest ∨ ∃ immediate following, rest = immediate ++ following ∧
      immediate.length = (Opcode.ofByte byte).immediate := by
  by_cases short : rest.length < (Opcode.ofByte byte).immediate
  · left
    constructor
    · by_contra other
      rw [Bool.not_eq_true] at other
      rw [(Opcode.immediate_ofByte byte).2 other] at short
      exact Nat.not_lt_zero _ short
    · exact short
  · right
    refine ⟨_, _, (List.take_append_drop (Opcode.ofByte byte).immediate rest).symm, ?_⟩
    rw [List.length_take]
    omega

/-- Every code is whole, or whole up to a push that is cut off. -/
theorem whole_or_cutOff (code : Bytecode) :
    code.Whole ∨ ∃ front byte tail, code = front ++ byte :: tail ∧ Whole front ∧
      CutOff byte tail := by
  induction equal : code.length using Nat.strongRecOn generalizing code with
  | ind size ih =>
      cases code with
      | nil => exact .inl .nil
      | cons byte rest =>
          rcases cutOff_or_exists_append byte rest with cut | ⟨immediate, following, rfl, complete⟩
          · exact .inr ⟨[], byte, rest, rfl, .nil, cut⟩
          · have smaller : following.length < size := by
              rw [← equal, List.length_cons, List.length_append]
              omega
            rcases ih _ smaller following rfl with whole | ⟨front, byte', tail, rfl, whole, cut⟩
            · exact .inl (.cons byte complete whole)
            · refine .inr ⟨byte :: (immediate ++ front), byte', tail, ?_,
                .cons byte complete whole, cut⟩
              simp

/-- Decoding takes one instruction with its bytes, and goes on with the rest. -/
theorem decodeFrom_append {byte : UInt8} {immediate : Bytecode}
    (size : immediate.length = (Opcode.ofByte byte).immediate) (offset : Nat) (rest : Bytecode) :
    (decodeFrom offset (byte :: (immediate ++ rest))).instructions =
      ⟨offset, Opcode.ofByte byte,
        if (Opcode.ofByte byte).isPush then some [Word.ofBytes immediate] else none⟩ ::
        (decodeFrom (offset + 1 + immediate.length) rest).instructions := by
  rw [decodeFrom]
  simp [← size]

/-- Decoding ends with a fault at a push that is cut off. -/
theorem decodeFrom_of_cutOff {byte : UInt8} {tail : Bytecode} (cut : CutOff byte tail)
    (offset : Nat) :
    (decodeFrom offset (byte :: tail)).instructions = [⟨offset, .invalid, none⟩] := by
  have short : (tail.take (Opcode.ofByte byte).immediate).length <
      (Opcode.ofByte byte).immediate := by
    rw [List.take_of_length_le (Nat.le_of_lt cut.short)]
    exact cut.short
  rw [decodeFrom]
  simp only [cut.push, short, decide_true, Bool.and_true, if_true]

/-- What follows whole code is decoded from its end on. -/
theorem Whole.decodeFrom_append {front : Bytecode} (whole : front.Whole) (offset : Nat)
    (rest : Bytecode) :
    (decodeFrom offset (front ++ rest)).instructions =
      (decodeFrom offset front).instructions ++
        (decodeFrom (offset + front.length) rest).instructions := by
  induction whole generalizing offset with
  | nil => simp [decodeFrom]
  | cons byte size _ ih =>
      rw [List.cons_append, List.append_assoc, Bytecode.decodeFrom_append size,
        Bytecode.decodeFrom_append size, ih, List.cons_append, List.length_cons,
        List.length_append]
      congr 4
      omega

/-- A decoded instruction is written with the bytes that it was read from. -/
theorem encode_decoded {byte : UInt8} {immediate : Bytecode}
    (size : immediate.length = (Opcode.ofByte byte).immediate) (offset : Nat) :
    Instruction.encode ⟨offset, Opcode.ofByte byte,
      if (Opcode.ofByte byte).isPush then some [Word.ofBytes immediate] else none⟩ =
        byte :: immediate := by
  cases push : (Opcode.ofByte byte).isPush with
  | true =>
      have written := Word.toBytes_ofBytes (size ▸ (Opcode.immediate_ofByte byte).1)
      simp [Instruction.encode, Instruction.pushed?, push, Opcode.byte_ofByte, ← size, written]
  | false =>
      rw [(Opcode.immediate_ofByte byte).2 push, List.length_eq_zero_iff] at size
      simp [Instruction.encode, Instruction.pushed?, push, Opcode.byte_ofByte, size]

/-- Whole code is written again by its instructions. -/
theorem Whole.encodeAll_decodeFrom {code : Bytecode} (whole : code.Whole) (offset : Nat) :
    Instruction.encodeAll (decodeFrom offset code).instructions = code := by
  induction whole generalizing offset with
  | nil => simp [decodeFrom]
  | cons byte size _ ih =>
      rw [Bytecode.decodeFrom_append size, Instruction.encodeAll_cons, encode_decoded size, ih,
        List.cons_append]

/-- The instructions of whole code stand where they are written. -/
theorem Whole.place_decodeFrom {code : Bytecode} (whole : code.Whole) (offset : Nat) :
    Instruction.place offset (decodeFrom offset code).instructions =
      (decodeFrom offset code).instructions := by
  induction whole generalizing offset with
  | nil => simp [decodeFrom, Instruction.place]
  | cons byte size _ ih =>
      rw [Bytecode.decodeFrom_append size, Instruction.place, encode_decoded size,
        List.length_cons, Nat.add_assoc, Nat.add_comm 1, ih]

/-- An instruction that can be written is an opcode with all of its bytes. -/
theorem exists_encode_eq {instruction : Instruction} (encodable : instruction.Encodable) :
    ∃ immediate, instruction.encode = instruction.op.byte :: immediate ∧
      immediate.length = instruction.op.immediate ∧
      instruction.constants =
        if instruction.op.isPush then some [Word.ofBytes immediate] else none := by
  cases push : instruction.op.isPush with
  | true =>
      rcases encodable.push push with ⟨word, constants, fits⟩
      refine ⟨word.toBytes instruction.op.immediate, ?_, Word.length_toBytes _ _, ?_⟩
      · simp [Instruction.encode, Instruction.pushed?, push, constants]
      · rw [Word.ofBytes_toBytes fits, constants, if_pos rfl]
  | false =>
      have listed := Opcode.ofByte_byte encodable.op
      refine ⟨[], ?_, ?_, encodable.bare push⟩
      · simp [Instruction.encode, Instruction.pushed?, push]
      · rw [← listed] at push ⊢
        exact ((Opcode.immediate_ofByte _).2 push).symm

/-- Written instructions are decoded where they are written. -/
theorem decodeFrom_encodeAll {instructions : List Instruction}
    (encodable : ∀ instruction ∈ instructions, instruction.Encodable) (offset : Nat) :
    (decodeFrom offset (Instruction.encodeAll instructions)).instructions =
      Instruction.place offset instructions := by
  induction instructions generalizing offset with
  | nil => simp [decodeFrom, Instruction.place]
  | cons instruction rest ih =>
      rw [List.forall_mem_cons] at encodable
      have listed := Opcode.ofByte_byte encodable.1.op
      rcases exists_encode_eq encodable.1 with ⟨immediate, written, size, constants⟩
      rw [← listed] at size
      rw [Instruction.encodeAll_cons, Instruction.place, written, List.cons_append,
        decodeFrom_append size, ih encodable.2, listed, ← constants, List.length_cons,
        Nat.add_assoc, Nat.add_comm 1]

/-- Decoding loses nothing and inverts writing. Whole code is written again by its
instructions, each of which starts where the code before it ends. Code that is cut off inside a
push decodes to what stands before the push and to one fault in its place, and all code is of
one of these two kinds. Instructions that can be written decode to themselves, one after the
other. -/
theorem decode_roundTrip :
    (∀ code : Bytecode, code.Whole →
      Instruction.encodeAll code.decode = code ∧
        ∀ front next back, code.decode = front ++ next :: back →
          next.offset = (Instruction.encodeAll front).length) ∧
    (∀ (front : Bytecode) (byte : UInt8) (tail : Bytecode), front.Whole → CutOff byte tail →
      decode (front ++ byte :: tail) = front.decode ++ [⟨front.length, .invalid, none⟩]) ∧
    (∀ code : Bytecode, code.Whole ∨ ∃ front byte tail, code = front ++ byte :: tail ∧
      Whole front ∧ CutOff byte tail) ∧
    ∀ instructions : List Instruction, (∀ instruction ∈ instructions, instruction.Encodable) →
      decode (Instruction.encodeAll instructions) = Instruction.place 0 instructions := by
  refine ⟨?_, ?_, whole_or_cutOff, ?_⟩
  · intro code whole
    constructor
    · exact whole.encodeAll_decodeFrom 0
    · intro front next back decoded
      rw [decode, ← whole.place_decodeFrom 0] at decoded
      simpa using Instruction.offset_place decoded
  · intro front byte tail whole cut
    rw [decode, whole.decodeFrom_append, decodeFrom_of_cutOff cut, Nat.zero_add]
    rfl
  · intro instructions encodable
    exact decodeFrom_encodeAll encodable 0

/-- Constants that look like jump destinations, a push of no bytes, and a push that is cut off
after one of two bytes. -/
theorem decode_roundTrip_push :
    Whole [0x60, 0x5b, 0x5f, 0x00] ∧
      Instruction.encodeAll (decode [0x60, 0x5b, 0x5f, 0x00]) = [0x60, 0x5b, 0x5f, 0x00] ∧
      decode [0x60, 0x5b, 0x61, 0x5b] =
        decode [0x60, 0x5b] ++ [⟨2, .invalid, none⟩] ∧
      decode (Instruction.encodeAll [⟨9, .push 2, some [0x5b]⟩, ⟨9, .push 0, some [0]⟩]) =
        [⟨0, .push 2, some [0x5b]⟩, ⟨3, .push 0, some [0]⟩] := by
  have ended : Whole [0x5f, 0x00] :=
    @Whole.cons 0x5f [] [0x00] (by decide +kernel) (@Whole.cons 0x00 [] [] (by decide +kernel) .nil)
  have whole : Whole [0x60, 0x5b, 0x5f, 0x00] := @Whole.cons 0x60 [0x5b] _ (by decide +kernel) ended
  have before : Whole [0x60, 0x5b] := @Whole.cons 0x60 [0x5b] [] (by decide +kernel) .nil
  have cut : CutOff 0x61 [0x5b] := ⟨by decide +kernel, by decide +kernel⟩
  have encodable : ∀ instruction ∈
      [(⟨9, .push 2, some [0x5b]⟩ : Instruction), ⟨9, .push 0, some [0]⟩],
      instruction.Encodable := by
    have push0 : Opcode.ofByte 0x5f = .push 0 := by decide +kernel
    have push2 : Opcode.ofByte 0x61 = .push 2 := by decide +kernel
    rw [List.forall_mem_cons, List.forall_mem_singleton]
    constructor
    · exact ⟨push2 ▸ Opcode.ofByte_mem_all 0x61, fun _ => ⟨0x5b, rfl, by decide⟩,
        fun other => by cases other⟩
    · exact ⟨push0 ▸ Opcode.ofByte_mem_all 0x5f, fun _ => ⟨0, rfl, by decide⟩,
        fun other => by cases other⟩
  exact ⟨whole, (decode_roundTrip.1 _ whole).1,
    decode_roundTrip.2.1 [0x60, 0x5b] 0x61 [0x5b] before cut,
    decode_roundTrip.2.2.2 _ encodable⟩

end Bytecode

end EvmLift
