import EvmLift.Listing.Pseudocode
import EvmLift.Proofs.Lifting.Form
import EvmLift.Proofs.Listing.Assembly

/-!
# Colour is decoration

Without its escape sequences a coloured listing reads as the plain one does. Lines are joined by
characters that no sequence has, so a listing is stripped line by line, and what is painted on a
line comes right behind plain text. Where names, mnemonics and signs have no escape character, a
plain listing has none either, so that stripping the coloured listing gives the plain one.
-/

namespace EvmLift

namespace Text

/-- A text without an escape character. -/
def Unescaped (text : String) : Prop :=
  '\x1b' ∉ text.toList

instance (text : String) : Decidable (Unescaped text) :=
  inferInstanceAs (Decidable (_ ∉ _))

theorem Unescaped.append {first second : String} (plain : Unescaped first)
    (plain' : Unescaped second) : Unescaped (first ++ second) := by
  rw [Unescaped, String.toList_append, List.mem_append, not_or]
  exact ⟨plain, plain'⟩

theorem Unescaped.intercalate {mark : String} (plain : Unescaped mark) {texts : List String}
    (all : ∀ text ∈ texts, Unescaped text) : Unescaped (mark.intercalate texts) := by
  induction texts with
  | nil => exact List.not_mem_nil
  | cons first rest ih =>
      cases rest with
      | nil => simpa using all
      | cons second rest =>
          rw [String.intercalate_cons_cons]
          exact ((all first (.head _)).append plain).append
            (ih fun text member => all text (.tail _ member))

end Text

open Text

namespace Paint

/-! ## Stripping -/

/-- All paints. -/
def all : List Paint :=
  [.blue, .green, .red, .gray, .reset]

/-- The paint whose escape sequence a text begins with. -/
def leading? (text : List Char) : Option Paint :=
  all.find? fun paint => paint.escape.toList.isPrefixOf text

/-- What follows the first `hidden` characters of a text, without the escape sequences in it. -/
def eraseAfter : Nat → List Char → List Char
  | _, [] => []
  | hidden + 1, _ :: rest => eraseAfter hidden rest
  | 0, character :: rest =>
      match leading? (character :: rest) with
      | some paint => eraseAfter (paint.escape.length - 1) rest
      | none => character :: eraseAfter 0 rest

/-- A text without the escape sequences of all paints. -/
def strip (text : String) : String :=
  String.ofList (eraseAfter 0 text.toList)

theorem exists_escape_eq (paint : Paint) :
    ∃ rest, paint.escape.toList = '\x1b' :: rest := by
  cases paint <;> exact ⟨_, rfl⟩

theorem leading?_of_ne {character : Char} (plain : character ≠ '\x1b') (rest : List Char) :
    leading? (character :: rest) = none := by
  apply List.find?_eq_none.mpr
  intro paint _ starts
  rcases exists_escape_eq paint with ⟨others, sequence⟩
  rw [sequence, List.isPrefixOf_iff_prefix, List.cons_prefix_cons] at starts
  exact plain starts.1.symm

/-- No sequence begins with another. -/
theorem leading?_escape_append (paint : Paint) (rest : List Char) :
    leading? (paint.escape.toList ++ rest) = some paint := by
  cases paint <;> rfl

theorem eraseAfter_length_append (hidden rest : List Char) :
    eraseAfter hidden.length (hidden ++ rest) = eraseAfter 0 rest := by
  induction hidden with
  | nil => rfl
  | cons first others ih => exact ih

theorem eraseAfter_escape_append (paint : Paint) (rest : List Char) :
    eraseAfter 0 (paint.escape.toList ++ rest) = eraseAfter 0 rest := by
  have leads := leading?_escape_append paint rest
  have size : paint.escape.length = paint.escape.toList.length := String.length_toList.symm
  rcases exists_escape_eq paint with ⟨others, sequence⟩
  rw [sequence, List.cons_append] at leads ⊢
  rw [eraseAfter, leads]
  dsimp only
  rw [size, sequence]
  exact eraseAfter_length_append others rest

theorem eraseAfter_cons_of_ne {character : Char} (plain : character ≠ '\x1b')
    (rest : List Char) : eraseAfter 0 (character :: rest) = character :: eraseAfter 0 rest := by
  rw [eraseAfter, leading?_of_ne plain]

theorem eraseAfter_append_of_not_mem {front : List Char} (plain : '\x1b' ∉ front)
    (rest : List Char) : eraseAfter 0 (front ++ rest) = front ++ eraseAfter 0 rest := by
  induction front with
  | nil => rfl
  | cons first others ih =>
      simp only [List.mem_cons, not_or] at plain
      rw [List.cons_append, eraseAfter_cons_of_ne (Ne.symm plain.1), ih plain.2, List.cons_append]

/-- A sequence that a text begins with ends before a character that it does not have. -/
theorem isPrefixOf_append_cons {sequence : List Char} {mark : Char} (fresh : mark ∉ sequence)
    (front back : List Char) :
    sequence.isPrefixOf (front ++ mark :: back) = sequence.isPrefixOf front := by
  induction sequence generalizing front with
  | nil => simp
  | cons first others ih =>
      simp only [List.mem_cons, not_or] at fresh
      cases front with
      | nil => simp [List.isPrefixOf, Ne.symm fresh.1]
      | cons character front =>
          rw [List.cons_append, List.isPrefixOf, List.isPrefixOf, ih fresh.2]

/-- A character that no sequence has. -/
def Separates (mark : Char) : Prop :=
  ∀ paint : Paint, mark ∉ paint.escape.toList

theorem Separates.ne {mark : Char} (separates : Separates mark) : mark ≠ '\x1b' := by
  rintro rfl
  exact separates .blue (.head _)

theorem Separates.leading?_append {mark : Char} (separates : Separates mark)
    (front back : List Char) : leading? (front ++ mark :: back) = leading? front := by
  simp only [leading?, isPrefixOf_append_cons (separates _)]

theorem length_le_of_leading? {text : List Char} {paint : Paint}
    (leads : leading? text = some paint) : paint.escape.length ≤ text.length := by
  have found := List.find?_some leads
  rw [← String.length_toList]
  exact (List.isPrefixOf_iff_prefix.mp found).length_le

/-- Sequences are erased on both sides of a character that none of them has. -/
theorem Separates.eraseAfter_append {mark : Char} (separates : Separates mark) {hidden : Nat}
    {front : List Char} (short : hidden ≤ front.length) (back : List Char) :
    eraseAfter hidden (front ++ mark :: back) =
      eraseAfter hidden front ++ mark :: eraseAfter 0 back := by
  induction front generalizing hidden with
  | nil =>
      rw [Nat.le_zero.mp short, List.nil_append, eraseAfter_cons_of_ne separates.ne]
      rfl
  | cons first others ih =>
      cases hidden with
      | succ hidden => exact ih (Nat.le_of_succ_le_succ short)
      | zero =>
          -- The mark ends every sequence that starts here, so the same one is found with the back.
          have leads := separates.leading?_append (first :: others) back
          rw [List.cons_append] at leads ⊢
          rw [eraseAfter, eraseAfter, leads]
          cases found : leading? (first :: others) with
          | none => exact congrArg (first :: ·) (ih (Nat.zero_le _))
          | some paint =>
              have inside := length_le_of_leading? found
              rw [List.length_cons] at inside
              exact ih (by omega)

theorem strip_append_of_unescaped {front : String} (plain : Unescaped front) (back : String) :
    strip (front ++ back) = front ++ strip back := by
  rw [strip, String.toList_append, eraseAfter_append_of_not_mem plain, String.ofList_append,
    String.ofList_toList, strip]

theorem strip_of_unescaped {text : String} (plain : Unescaped text) : strip text = text := by
  have whole := strip_append_of_unescaped plain ""
  simpa [strip, eraseAfter] using whole

/-- Paint disappears, and what was painted stays. -/
theorem strip_apply_append {text : String} (plain : Unescaped text) (paint : Paint) (color : Bool)
    (back : String) : strip (paint.apply color text ++ back) = text ++ strip back := by
  rw [Paint.apply]
  split
  next painted =>
    rw [strip, String.toList_append, String.toList_append, String.toList_append, List.append_assoc,
      List.append_assoc, eraseAfter_escape_append, eraseAfter_append_of_not_mem plain,
      eraseAfter_escape_append, String.ofList_append, String.ofList_toList, strip]
  next bare => exact strip_append_of_unescaped plain back

theorem strip_apply {text : String} (plain : Unescaped text) (paint : Paint) (color : Bool) :
    strip (paint.apply color text) = text := by
  have alone := strip_apply_append plain paint color ""
  simpa [strip, eraseAfter] using alone

/-- A text that keeps what it joins apart: no sequence reaches into it or across it. -/
def Joins (mark : String) : Prop :=
  ∀ front back, strip (front ++ mark ++ back) = strip front ++ mark ++ strip back

theorem separates_newline : Separates '\n' := by
  intro paint
  cases paint <;> decide

theorem joins_line : Joins "\n" := by
  intro front back
  apply String.toList_inj.mp
  simp [strip, separates_newline.eraseAfter_append]

theorem joins_paragraph : Joins "\n\n" := by
  intro front back
  apply String.toList_inj.mp
  simp [strip, separates_newline.eraseAfter_append, eraseAfter_cons_of_ne separates_newline.ne]

/-- Joined texts are stripped one by one. -/
theorem Joins.strip_intercalate {mark : String} (joins : Joins mark) (texts : List String) :
    strip (mark.intercalate texts) = mark.intercalate (texts.map strip) := by
  induction texts with
  | nil => rfl
  | cons first rest ih =>
      cases rest with
      | nil => simp
      | cons second rest =>
          rw [String.intercalate_cons_cons, joins, ih, List.map_cons, List.map_cons, List.map_cons,
            String.intercalate_cons_cons]

end Paint

open Paint

/-! ## Stripped listings -/

theorem Hex.unescaped_literal (value : Nat) : Unescaped (literal value) := by
  have written : '\x1b' ∉ digits value := not_mem_digits (by decide) value
  simp [Unescaped, written]

namespace Value

theorem unescaped_text (value : Value) : Unescaped value.text := by
  have decimal (number : Nat) : '\x1b' ∉ Nat.toDigits 10 number := by
    intro member
    have digit := Nat.isDigit_of_mem_toDigits (by decide) (by decide) member
    exact absurd digit (by decide)
  cases value with
  | const word => exact Hex.unescaped_literal word.toNat
  | var id =>
      have digits : Unescaped (toString id) := by simpa [Unescaped] using decimal id
      exact Unescaped.append (by decide) digits
  | param index =>
      have digits : Unescaped (toString index) := by simpa [Unescaped] using decimal index
      exact Unescaped.append (by decide) digits

theorem unescaped_listing (values : List Value) : Unescaped (listing values) := by
  apply Unescaped.intercalate (by decide)
  simp [unescaped_text]

end Value

namespace Statement

theorem strip_call (callee : Callee) (args : List Value) :
    strip (call true callee args) = strip (call false callee args) := by
  cases callee with
  | routine name => rfl
  | fault => exact (strip_apply (by decide) _ _).trans (strip_apply (by decide) _ _).symm
  | computed value => rfl

theorem strip_listing (statement : Statement) :
    strip (statement.listing true) = strip (statement.listing false) := by
  cases statement with
  | assign offset targets op operands => cases targets <;> rfl
  | jump offset callee condition args =>
      cases condition with
      | none => exact strip_call callee args
      | some condition =>
          have stripped (color : Bool) :
              strip (listing color (.jump offset callee (some condition) args)) =
                "if" ++ (" " ++ (condition.text ++ (": " ++ strip (call color callee args)))) := by
            rw [listing, String.append_assoc, String.append_assoc, String.append_assoc,
              strip_apply_append (by decide), strip_append_of_unescaped (by decide),
              strip_append_of_unescaped condition.unescaped_text,
              strip_append_of_unescaped (by decide)]
          rw [stripped, stripped, strip_call]

end Statement

namespace Routine

theorem strip_header (routine : Routine) :
    strip (routine.header true) = strip (routine.header false) := by
  have stripped (color : Bool) :
      strip (routine.header color) =
        "def" ++ strip (" " ++ (routine.name ++
          ("(" ++ (commaSeparated routine.params ++ "):")))) := by
    rw [header, String.append_assoc, String.append_assoc, String.append_assoc, String.append_assoc,
      strip_apply_append (by decide)]
  rw [stripped, stripped]

theorem map_strip_bodyLines (routine : Routine) :
    (routine.bodyLines true).map strip = (routine.bodyLines false).map strip := by
  unfold bodyLines
  split
  next => rfl
  next => simp [Statement.strip_listing]

theorem strip_listing (routine : Routine) :
    strip (routine.listing true) = strip (routine.listing false) := by
  have indented (lines : List String) :
      (lines.map fun line => "    " ++ line).map strip =
        (lines.map strip).map fun line => "    " ++ line := by
    simp [strip_append_of_unescaped (show Unescaped "    " by decide)]
  rw [listing, listing, joins_line.strip_intercalate, joins_line.strip_intercalate, List.map_cons,
    List.map_cons, strip_header, indented, indented, map_strip_bodyLines]

end Routine

theorem Program.strip_listing (program : Program) :
    strip (program.listing true) = strip (program.listing false) := by
  rw [listing, listing, joins_paragraph.strip_intercalate, joins_paragraph.strip_intercalate,
    List.map_map, List.map_map]
  simp only [Function.comp_def, Routine.strip_listing]

theorem Instruction.unescaped_offsetColumn (instruction : Instruction) :
    Unescaped instruction.offsetColumn :=
  not_mem_offsetColumn (by decide) (by decide) (by decide) instruction

theorem Instruction.strip_row (instruction : Instruction) :
    strip (instruction.row true) = strip (instruction.row false) := by
  have stripped (color : Bool) :
      strip (instruction.row color) =
        "[" ++ (instruction.offsetColumn ++ strip ("] | " ++ (instruction.mnemonicColumn ++
          (" |" ++ instruction.constantsColumn)))) := by
    rw [row, String.append_assoc, String.append_assoc, String.append_assoc, String.append_assoc,
      strip_append_of_unescaped (by decide),
      strip_apply_append instruction.unescaped_offsetColumn]
  rw [stripped, stripped]

namespace Block

theorem strip_header (block : Block) (color : Bool) :
    strip (block.header color) = "; block " ++ Hex.literal block.offset :=
  strip_apply (Unescaped.append (by decide) (Hex.unescaped_literal block.offset)) _ _

theorem map_strip_lines (block : Block) :
    (block.lines true).map strip = (block.lines false).map strip := by
  simp [lines, strip_header, Instruction.strip_row]

theorem strip_listing (blocks : List Block) :
    strip (listing true blocks) = strip (listing false blocks) := by
  rw [listing, listing, joins_line.strip_intercalate, joins_line.strip_intercalate,
    List.map_flatMap, List.map_flatMap]
  simp only [map_strip_lines]

end Block

/-! ## Plain listings -/

namespace Statement

theorem unescaped_expression {op : Opcode} (mnemonic : Unescaped op.mnemonic)
    (symbols : ∀ symbol ∈ op.symbol, Unescaped symbol) (operands : List Value) :
    Unescaped (expression op operands) := by
  have call : Unescaped (op.mnemonic ++ "(" ++ Value.listing operands ++ ")") :=
    ((mnemonic.append (by decide)).append (Value.unescaped_listing operands)).append (by decide)
  unfold expression
  split
  next value =>
    split
    · exact value.unescaped_text
    · exact call
  next symbol left right sign =>
    exact (((left.unescaped_text.append (by decide)).append (symbols symbol sign)).append
      (by decide)).append right.unescaped_text
  next => exact call

theorem unescaped_call {callee : Callee} (plain : ∀ name, callee = .routine name → Unescaped name)
    (args : List Value) : Unescaped (call false callee args) := by
  have passed := Value.unescaped_listing args
  cases callee with
  | routine name =>
      exact (((plain name rfl).append (by decide)).append passed).append (by decide)
  | fault => exact (by decide : Unescaped "throw")
  | computed value =>
      exact ((value.unescaped_text.append (by decide)).append passed).append (by decide)

theorem unescaped_listing {statement : Statement}
    (names : ∀ name ∈ statement.enters?, Unescaped name)
    (mnemonics : ∀ op ∈ statement.op?, Unescaped op.mnemonic)
    (symbols : ∀ op ∈ statement.op?, ∀ symbol ∈ op.symbol, Unescaped symbol) :
    Unescaped (statement.listing false) := by
  cases statement with
  | assign offset targets op operands =>
      have right := unescaped_expression (mnemonics op rfl) (symbols op rfl) operands
      cases targets with
      | nil => exact right
      | cons target targets =>
          exact ((Value.unescaped_listing _).append (by decide)).append right
  | jump offset callee condition args =>
      have jump : Unescaped (call false callee args) := by
        apply unescaped_call
        rintro name rfl
        exact names name rfl
      cases condition with
      | none => exact jump
      | some condition =>
          have test : Unescaped ("if" ++ " ") := by decide
          exact ((test.append condition.unescaped_text).append (by decide)).append jump

end Statement

namespace Routine

theorem unescaped_header {routine : Routine} (name : Unescaped routine.name) :
    Unescaped (routine.header false) := by
  have params : Unescaped (commaSeparated routine.params) := by
    apply Unescaped.intercalate (by decide)
    simp [Routine.params, Value.unescaped_text]
  have start : Unescaped ("def" ++ " ") := by decide
  exact (((start.append name).append (by decide)).append params).append (by decide)

theorem unescaped_listing {routine : Routine} (name : Unescaped routine.name)
    (body : ∀ statement ∈ routine.body, Unescaped (statement.listing false)) :
    Unescaped (routine.listing false) := by
  have lines : ∀ line ∈ routine.bodyLines false, Unescaped line := by
    unfold bodyLines
    split
    next => decide
    next => simpa using body
  apply Unescaped.intercalate (by decide)
  simp only [List.forall_mem_cons, List.forall_mem_map]
  exact ⟨unescaped_header name, fun line member => Unescaped.append (by decide) (lines line member)⟩

end Routine

namespace Program

/-- The names of routines in a program, where they start and where they are called. -/
def names (program : Program) : List String :=
  program.routines.flatMap fun routine => routine.name :: routine.body.filterMap Statement.enters?

/-- The opcodes of the assignments in a program. -/
def opcodes (program : Program) : List Opcode :=
  program.routines.flatMap fun routine => routine.body.filterMap Statement.op?

/-- Names, mnemonics and signs have no escape character. -/
structure SpelledPlainly (program : Program) : Prop where
  names : ∀ name ∈ program.names, Unescaped name
  mnemonics : ∀ op ∈ program.opcodes, Unescaped op.mnemonic
  symbols : ∀ op ∈ program.opcodes, ∀ symbol ∈ op.symbol, Unescaped symbol

theorem SpelledPlainly.unescaped_listing {program : Program} (plain : program.SpelledPlainly) :
    Unescaped (program.listing false) := by
  apply Unescaped.intercalate (by decide)
  simp only [List.forall_mem_map]
  intro routine listed
  have named : ∀ name ∈ routine.name :: routine.body.filterMap Statement.enters?, Unescaped name :=
    fun name member => plain.names name (List.mem_flatMap.mpr ⟨routine, listed, member⟩)
  have computed {statement : Statement} (placed : statement ∈ routine.body) {op : Opcode}
      (assigned : op ∈ statement.op?) : op ∈ program.opcodes :=
    List.mem_flatMap.mpr ⟨routine, listed, List.mem_filterMap.mpr ⟨statement, placed, assigned⟩⟩
  apply Routine.unescaped_listing (named _ (.head _))
  intro statement placed
  apply Statement.unescaped_listing
  · intro name member
    exact named name (.tail _ (List.mem_filterMap.mpr ⟨statement, placed, member⟩))
  · exact fun op assigned => plain.mnemonics op (computed placed assigned)
  · exact fun op assigned => plain.symbols op (computed placed assigned)

end Program

theorem Instruction.unescaped_row {instruction : Instruction}
    (mnemonic : Unescaped instruction.op.mnemonic) : Unescaped (instruction.row false) := by
  have padded : Unescaped instruction.mnemonicColumn := by
    simpa [Unescaped, mnemonicColumn, List.rightpad] using mnemonic
  have constants : Unescaped instruction.constantsColumn := by
    unfold constantsColumn
    split
    next => decide
    next words _ =>
      apply Unescaped.append (by decide)
      apply Unescaped.intercalate (by decide)
      simp only [List.forall_mem_map]
      exact fun word _ => Hex.unescaped_literal word.toNat
  have start : Unescaped ("[" ++ instruction.offsetColumn ++ "] | ") :=
    (Unescaped.append (by decide) instruction.unescaped_offsetColumn).append (by decide)
  exact ((start.append padded).append (by decide)).append constants

namespace Block

/-- The opcodes of the instructions in blocks. -/
def opcodes (blocks : List Block) : List Opcode :=
  blocks.flatMap fun block => block.instructions.map Instruction.op

theorem unescaped_listing {blocks : List Block}
    (mnemonics : ∀ op ∈ opcodes blocks, Unescaped op.mnemonic) :
    Unescaped (listing false blocks) := by
  apply Unescaped.intercalate (by decide)
  simp only [List.forall_mem_flatMap]
  intro block listed
  have header : Unescaped (block.header false) :=
    Unescaped.append (by decide) (Hex.unescaped_literal block.offset)
  have rows : ∀ instruction ∈ block.instructions, Unescaped (instruction.row false) := by
    intro instruction placed
    apply Instruction.unescaped_row
    exact mnemonics _ (List.mem_flatMap.mpr ⟨block, listed, List.mem_map_of_mem placed⟩)
  simp only [lines, List.forall_mem_cons, List.forall_mem_append, List.forall_mem_map]
  exact ⟨header, rows, by decide, List.forall_mem_nil _⟩

end Block

/-- Colour is decoration. Stripping leaves the same text of a coloured listing as of a plain one,
and this is the plain one itself where names, mnemonics and signs have no escape character. Of
these, a listing of instructions has mnemonics only. -/
theorem strip_colored_listings (program : Program) (blocks : List Block) :
    (program.SpelledPlainly → strip (program.listing true) = program.listing false) ∧
      ((∀ op ∈ Block.opcodes blocks, Unescaped op.mnemonic) →
        strip (Block.listing true blocks) = Block.listing false blocks) ∧
      strip (program.listing true) = strip (program.listing false) ∧
      strip (Block.listing true blocks) = strip (Block.listing false blocks) := by
  refine ⟨?_, ?_, program.strip_listing, Block.strip_listing blocks⟩
  · intro plain
    rw [program.strip_listing, strip_of_unescaped plain.unescaped_listing]
  · intro mnemonics
    rw [Block.strip_listing, strip_of_unescaped (Block.unescaped_listing mnemonics)]

/-- A conditional jump to nowhere, and a push. -/
theorem strip_colored_listings_fault :
    let program : Program := ⟨[⟨"main", 0, 1, [.jump (some 0) .fault (some (.param 0)) []], []⟩]⟩
    let blocks : List Block := [⟨0, [⟨0, .push 1, some [0x20]⟩]⟩]
    (program.SpelledPlainly ∧ ∀ op ∈ Block.opcodes blocks, Unescaped op.mnemonic) ∧
      strip (program.listing true) = "def main(arg0):\n    if arg0: throw" ∧
      strip (Block.listing true blocks) =
        "; block 0x0\n[  0x0000] | push1                | 0x20\n" := by
  intro program blocks
  have plain : program.SpelledPlainly :=
    ⟨by decide +kernel, by decide +kernel, by decide +kernel⟩
  have mnemonics : ∀ op ∈ Block.opcodes blocks, Unescaped op.mnemonic := by decide +kernel
  have stripped := strip_colored_listings program blocks
  refine ⟨⟨plain, mnemonics⟩, (stripped.1 plain).trans ?_, (stripped.2.1 mnemonics).trans ?_⟩
  · decide +kernel
  · decide +kernel

/-- Plain names and mnemonics are not enough: a sign may be an escape sequence itself. -/
theorem not_forall_strip_listing_eq :
    ¬ ∀ (program : Program) (blocks : List Block),
      (∀ name ∈ program.names, Unescaped name) →
      (∀ op ∈ program.opcodes ++ Block.opcodes blocks, Unescaped op.mnemonic) →
      strip (program.listing true) = program.listing false ∧
        strip (Block.listing true blocks) = Block.listing false blocks := by
  intro stripped
  let op : Opcode :=
    { byte := 0, mnemonic := "custom", pops := 2, pushes := 1, symbol := some "\x1b[0m" }
  let program : Program :=
    ⟨[⟨"main", 0, 0, [.assign 0 [.var 3] op [.var 1, .var 2]], []⟩]⟩
  have same := (stripped program [] (by decide +kernel) (by decide +kernel)).1
  exact absurd same (by decide +kernel)

end EvmLift
