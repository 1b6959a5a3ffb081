import EvmLift.Json.Encoding
import EvmLift.Proofs.Mnemonics
import EvmLift.Proofs.Text
import Mathlib.Data.List.Basic

/-!
# Documents lose nothing

Values are read back from their documents. The document of a program tells the program, but
for the bytes of unassigned opcodes, which all have one mnemonic.
-/

namespace EvmLift

namespace Json

theorem nat_inj {first second : Nat} : nat first = nat second ↔ first = second := by
  rw [nat, nat, number.injEq, Int.ofNat_inj]
  exact and_iff_left rfl

theorem nat_ne_null (value : Nat) : nat value ≠ .null := by
  simp [nat]

/-- What stands for a missing item is the document of none. -/
theorem getD_null_inj {Item : Type} {write : Item → Json}
    (injective : ∀ {first second}, write first = write second ↔ first = second)
    (present : ∀ item, write item ≠ .null) {first second : Option Item} :
    (first.map write).getD .null = (second.map write).getD .null ↔ first = second := by
  cases first <;> cases second <;> simp [injective, present, (present _).symm]

end Json

namespace Value

/-- The number of a variable or parameter fits in 64 bits. -/
def Fits : Value → Prop
  | .const _ => True
  | .var number | .param number => number < UInt64.size

theorem dropMark_of_not_mem {text : List Char} (unmarked : 'x' ∉ text) : dropMark text = text := by
  unfold dropMark
  split
  · simp at unmarked
  · rfl

/-- The literal of a word has at most 64 digits behind its mark, so it is read back. -/
theorem wordOfText?_literal (word : Word) : wordOfText? (Hex.literal word.toNat) = some word := by
  have short : (Hex.digits word.toNat).length ≤ 64 :=
    (Nat.length_toDigits_le_iff (by decide) (by decide)).mpr word.isLt
  have unmarked : 'x' ∉ Hex.digits word.toNat := Hex.not_mem_digits (by decide) _
  have text : dropMark (dropMark (Hex.literal word.toNat).toList) = Hex.digits word.toNat := by
    rw [Hex.toList_literal]
    exact dropMark_of_not_mem unmarked
  unfold wordOfText?
  rw [text, if_neg (Nat.not_lt.mpr short), Hex.nat?_digits]
  simp

theorem indexOfJson?_nat {index : Nat} (small : index < UInt64.size) :
    indexOfJson? (.nat index) = some index :=
  if_pos small

/-- Values are read back from their documents. -/
theorem ofJson?_toJson {value : Value} (fits : value.Fits) : ofJson? value.toJson = some value := by
  cases value with
  | const word => simp [toJson, ofJson?, wordOfText?_literal]
  | var id => simp [toJson, ofJson?, indexOfJson?_nat fits]
  | param index => simp [toJson, ofJson?, indexOfJson?_nat fits]

theorem toJson_inj {first second : Value} : first.toJson = second.toJson ↔ first = second := by
  cases first <;> cases second <;> simp [toJson, Json.nat_inj, Hex.literal_inj, BitVec.toNat_inj]

theorem toJson_ne_null (value : Value) : value.toJson ≠ .null := by
  cases value <;> simp [toJson]

theorem listToJson_inj {first second : List Value} :
    listToJson first = listToJson second ↔ first = second := by
  have injective : Function.Injective toJson := fun _ _ same => toJson_inj.mp same
  simp [listToJson, injective.list_map.eq_iff]

end Value

theorem Callee.toJson_inj {first second : Callee} :
    first.toJson = second.toJson ↔ first = second := by
  cases first <;> cases second <;> simp [toJson, Value.toJson_inj]

namespace Statement

/-- The opcode of a statement is one of the table. -/
def Tabled : Statement → Prop
  | .assign _ _ op _ => op ∈ Opcode.all
  | .jump .. => True

/-- The statement as far as it is spelled out. -/
def spelled : Statement → Statement
  | .assign offset targets op operands => .assign offset targets op.spelled operands
  | .jump offset callee condition args => .jump offset callee condition args

theorem toJson_eq_iff {first second : Statement} (tabled : first.Tabled)
    (tabled' : second.Tabled) : first.toJson = second.toJson ↔ first.spelled = second.spelled := by
  cases first with
  | assign =>
      cases second with
      | assign =>
          simp only [toJson, spelled, Json.object.injEq, List.cons.injEq, Prod.mk.injEq,
            Json.string.injEq, Statement.assign.injEq, Json.nat_inj, Value.listToJson_inj,
            Opcode.mnemonic_eq_iff tabled tabled', true_and, and_true]
          tauto
      | jump => simp [toJson, spelled]
  | jump =>
      cases second with
      | assign => simp [toJson, spelled]
      | jump =>
          simp only [toJson, spelled, Json.object.injEq, List.cons.injEq, Prod.mk.injEq,
            Statement.jump.injEq, Value.listToJson_inj, Callee.toJson_inj,
            Json.getD_null_inj Value.toJson_inj Value.toJson_ne_null,
            Json.getD_null_inj Json.nat_inj Json.nat_ne_null, true_and, and_true]
          tauto

end Statement

namespace Routine

/-- The opcodes of a routine are those of the table. -/
def Tabled (routine : Routine) : Prop :=
  ∀ statement ∈ routine.body, statement.Tabled

/-- The routine as far as it is spelled out. -/
def spelled (routine : Routine) : Routine :=
  { routine with body := routine.body.map Statement.spelled }

theorem toJson_eq_iff {first second : Routine} (tabled : first.Tabled)
    (tabled' : second.Tabled) : first.toJson = second.toJson ↔ first.spelled = second.spelled := by
  have bodies : first.body.map Statement.toJson = second.body.map Statement.toJson ↔
      first.body.map Statement.spelled = second.body.map Statement.spelled := by
    apply Text.map_eq_map_iff
    intro statement member other member'
    exact Statement.toJson_eq_iff (tabled statement member) (tabled' other member')
  simp only [toJson, spelled, Json.object.injEq, List.cons.injEq, Prod.mk.injEq, Json.string.injEq,
    Json.array.injEq, Routine.mk.injEq, Json.nat_inj, Value.listToJson_inj, bodies, true_and,
    and_true]
  tauto

end Routine

namespace Program

/-- The opcodes of a program are those of the table. -/
def Tabled (program : Program) : Prop :=
  ∀ routine ∈ program.routines, routine.Tabled

/-- The program as far as it is spelled out: without the bytes of unassigned opcodes. -/
def spelled (program : Program) : Program :=
  ⟨program.routines.map Routine.spelled⟩

theorem toJson_eq_iff {first second : Program} (tabled : first.Tabled)
    (tabled' : second.Tabled) : first.toJson = second.toJson ↔ first.spelled = second.spelled := by
  have routines : first.routines.map Routine.toJson = second.routines.map Routine.toJson ↔
      first.routines.map Routine.spelled = second.routines.map Routine.spelled := by
    apply Text.map_eq_map_iff
    intro routine member other member'
    exact Routine.toJson_eq_iff (tabled routine member) (tabled' other member')
  simp only [toJson, spelled, Json.object.injEq, List.cons.injEq, Prod.mk.injEq, Json.array.injEq,
    Program.mk.injEq, routines, true_and, and_true]

end Program

/-- Documents lose nothing. A value is read back, and a program is told up to the bytes that
its unassigned opcodes stand for. -/
theorem documents_lossless :
    (∀ value : Value, value.Fits → Value.ofJson? value.toJson = some value) ∧
      ∀ first second : Program, first.Tabled → second.Tabled →
        (first.toJson = second.toJson ↔ first.spelled = second.spelled) :=
  ⟨fun _ fits => Value.ofJson?_toJson fits,
    fun _ _ tabled tabled' => Program.toJson_eq_iff tabled tabled'⟩

/-- The greatest number of a variable is read back. Two programs that fault at different
unassigned bytes have one document, and a program that stops has another. -/
theorem documents_lossless_faults :
    Value.ofJson? (Value.var (2 ^ 64 - 1)).toJson = some (.var (2 ^ 64 - 1)) ∧
      (Program.mk [⟨"main", 0, 0, [.assign 0 [] (.ofByte 0x0c) []], []⟩]).toJson =
        (Program.mk [⟨"main", 0, 0, [.assign 0 [] (.ofByte 0x0d) []], []⟩]).toJson ∧
      (Program.mk [⟨"main", 0, 0, [.assign 0 [] (.ofByte 0x0c) []], []⟩]).toJson ≠
        (Program.mk [⟨"main", 0, 0, [.assign 0 [] (.ofByte 0x00) []], []⟩]).toJson := by
  have tabled (byte : UInt8) :
      (Program.mk [⟨"main", 0, 0, [.assign 0 [] (.ofByte byte) []], []⟩]).Tabled := by
    simp [Program.Tabled, Routine.Tabled, Statement.Tabled, Opcode.ofByte_mem_all]
  refine ⟨documents_lossless.1 _ (show 2 ^ 64 - 1 < UInt64.size by decide), ?_, ?_⟩
  · apply (documents_lossless.2 _ _ (tabled 0x0c) (tabled 0x0d)).mpr
    decide +kernel
  · rw [ne_eq, documents_lossless.2 _ _ (tabled 0x0c) (tabled 0x00)]
    decide +kernel

end EvmLift
