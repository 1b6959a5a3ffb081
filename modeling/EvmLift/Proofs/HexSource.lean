import EvmLift.Bytecode.Basic
import EvmLift.Proofs.Text

/-!
# Code as hexadecimal text

Text writes code if it consists of blanks, at most one mark, two digits of either case for each
byte, and blanks. Reading accepts exactly these texts and yields the bytes that were written.
Whatever is left of another text without its blanks and its mark decides on the error: first its
length, which counts bytes, and only then its characters.
-/

namespace EvmLift

namespace Text

/-- A text of blanks only. -/
def Blank (text : List Char) : Prop :=
  ∀ character ∈ text, isBlank character = true

/-- A text with no blank at either end. -/
structure Trimmed (text : List Char) : Prop where
  head : ∀ character, text.head? = some character → isBlank character = false
  last : ∀ character, text.getLast? = some character → isBlank character = false

theorem trimmed_of_forall {text : List Char}
    (solid : ∀ character ∈ text, isBlank character = false) : Trimmed text where
  head := fun character head => solid character (List.mem_of_head? head)
  last := fun character last => solid character (List.mem_of_getLast? last)

theorem Blank.reverse {text : List Char} (blank : Blank text) : Blank text.reverse := by
  intro character member
  exact blank character (List.mem_reverse.mp member)

theorem blank_takeWhile (text : List Char) : Blank (text.takeWhile isBlank) :=
  List.all_eq_true.mp List.all_takeWhile

theorem head?_dropWhile_isBlank {text : List Char} {character : Char}
    (head : (text.dropWhile isBlank).head? = some character) : isBlank character = false := by
  have stops := text.head?_dropWhile_not isBlank
  rwa [head] at stops

theorem dropWhile_append_of_blank {leading rest : List Char} (blank : Blank leading)
    (stops : ∀ character, rest.head? = some character → isBlank character = false) :
    (leading ++ rest).dropWhile isBlank = rest := by
  rw [List.dropWhile_append_of_pos blank]
  cases rest with
  | nil => rfl
  | cons character rest => simp [stops character rfl]

/-- Blanks at the ends are removed, and nothing else. -/
theorem trimBlanks_append {leading text trailing : List Char} (blank : Blank leading)
    (trimmed : Trimmed text) (blank' : Blank trailing) :
    trimBlanks (leading ++ text ++ trailing) = text := by
  cases text with
  | nil =>
      have nothing : (trailing ++ []).dropWhile isBlank = [] :=
        List.dropWhile_append_of_pos blank'
      rw [List.append_nil] at nothing
      rw [trimBlanks, List.append_nil, List.dropWhile_append_of_pos blank, nothing]
      rfl
  | cons first rest =>
      have front : (leading ++ (first :: rest) ++ trailing).dropWhile isBlank =
          first :: rest ++ trailing := by
        rw [List.append_assoc]
        exact dropWhile_append_of_blank blank fun character head => trimmed.head character head
      have back : (trailing.reverse ++ (first :: rest).reverse).dropWhile isBlank =
          (first :: rest).reverse := by
        apply dropWhile_append_of_blank blank'.reverse
        intro character head
        rw [List.head?_reverse] at head
        exact trimmed.last character head
      rw [trimBlanks, front, List.reverse_append, back, List.reverse_reverse]

theorem exists_trimBlanks (text : List Char) :
    ∃ leading trailing, text = leading ++ trimBlanks text ++ trailing ∧
      Blank leading ∧ Blank trailing ∧ Trimmed (trimBlanks text) := by
  have back : text.dropWhile isBlank =
      trimBlanks text ++ ((text.dropWhile isBlank).reverse.takeWhile isBlank).reverse := by
    rw [trimBlanks, ← List.reverse_append, List.takeWhile_append_dropWhile, List.reverse_reverse]
  refine ⟨text.takeWhile isBlank, ((text.dropWhile isBlank).reverse.takeWhile isBlank).reverse, ?_,
    blank_takeWhile text, (blank_takeWhile _).reverse, ?_, ?_⟩
  · rw [List.append_assoc, ← back, List.takeWhile_append_dropWhile]
  · intro character head
    have first : (text.dropWhile isBlank).head? = some character := by
      rw [back, List.head?_append, head, Option.some_or]
    exact head?_dropWhile_isBlank first
  · intro character last
    rw [trimBlanks, List.getLast?_reverse] at last
    exact head?_dropWhile_isBlank last

end Text

namespace Hex

/-- Whether a character is a digit of either case. -/
def isDigit (character : Char) : Bool :=
  ('0' ≤ character && character ≤ '9') || ('a' ≤ character && character ≤ 'f') ||
    ('A' ≤ character && character ≤ 'F')

theorem isSome_digit?_iff {character : Char} :
    (digit? character).isSome = true ↔ isDigit character = true := by
  unfold digit? isDigit
  split
  · simp_all
  · split
    · simp_all
    · split <;> simp_all

theorem toNat_lt_of_isDigit {character : Char} (digit : isDigit character = true) :
    character.toNat < 128 := by
  simp only [isDigit, Bool.or_eq_true, Bool.and_eq_true, decide_eq_true_eq, Char.le_def,
    UInt32.le_iff_toNat_le] at digit
  have bounds : '9'.val.toNat < 128 ∧ 'f'.val.toNat < 128 ∧ 'F'.val.toNat < 128 := by decide
  unfold Char.toNat
  omega

theorem toNat_lt_of_toLower {character : Char} (lower : character.toLower.toNat < 128) :
    character.toNat < 128 := by
  unfold Char.toLower at lower
  split at lower
  next upper =>
    have bound : 'Z'.val.toNat < 128 := by decide
    have below := UInt32.le_iff_toNat_le.mp upper.2
    unfold Char.toNat
    omega
  · exact lower

theorem digit?_ofNat_eq_some_iff : ∀ code < 128, ∀ value < 16,
    digit? (Char.ofNat code) = some value ↔ (Char.ofNat code).toLower = value.digitChar := by
  decide +kernel

theorem digit?_ofNat_lt : ∀ code < 128, ∀ value ∈ digit? (Char.ofNat code), value < 16 := by
  decide +kernel

/-- A digit stands for a value if it is written so, in either case. -/
theorem digit?_eq_some_iff {character : Char} {value : Nat} :
    digit? character = some value ↔ value < 16 ∧ character.toLower = value.digitChar := by
  constructor
  · intro digit
    have code := toNat_lt_of_isDigit (isSome_digit?_iff.mp (Option.isSome_of_eq_some digit))
    rw [← Char.ofNat_toNat character] at digit ⊢
    have small := digit?_ofNat_lt _ code value digit
    exact ⟨small, (digit?_ofNat_eq_some_iff _ code value small).mp digit⟩
  · rintro ⟨small, lower⟩
    have written : ∀ value < 16, value.digitChar.toNat < 128 := by decide
    have code := toNat_lt_of_toLower (lower ▸ written value small)
    rw [← Char.ofNat_toNat character] at lower ⊢
    exact (digit?_ofNat_eq_some_iff _ code value small).mpr lower

theorem digit_ofNat : ∀ code < 128, isDigit (Char.ofNat code) = true →
    Text.isBlank (Char.ofNat code) = false ∧ (Char.ofNat code).utf8Size = 1 := by
  decide +kernel

/-- A digit is no blank, and it takes one byte. -/
theorem isBlank_utf8Size_of_isDigit {character : Char} (digit : isDigit character = true) :
    Text.isBlank character = false ∧ character.utf8Size = 1 := by
  have code := toNat_lt_of_isDigit digit
  rw [← Char.ofNat_toNat character] at digit ⊢
  exact digit_ofNat _ code digit

theorem leftpad_digits {value : Nat} (small : value < 256) :
    (digits value).leftpad 2 '0' = [(value / 16).digitChar, (value % 16).digitChar] := by
  rcases Nat.lt_or_ge value 16 with lower | large
  · rw [digits_of_lt lower, Nat.div_eq_of_lt lower, Nat.mod_eq_of_lt lower]
    rfl
  · rw [digits_of_le large, digits_of_lt (show value / 16 < 16 by omega)]
    rfl

@[simp] theorem toList_ofBytes_nil : (ofBytes []).toList = [] := rfl

@[simp] theorem toList_ofBytes_cons (byte : UInt8) (bytes : List UInt8) :
    (ofBytes (byte :: bytes)).toList =
      (byte.toNat / 16).digitChar :: (byte.toNat % 16).digitChar :: (ofBytes bytes).toList := by
  rw [ofBytes, String.toList_ofList, List.flatMap_cons, leftpad_digits byte.toNat_lt, ofBytes,
    String.toList_ofList]
  rfl

/-- Two digits are read as one byte. -/
theorem bytes?_cons_cons_eq_some_iff {high low : Char} {rest : List Char} {bytes : List UInt8} :
    bytes? (high :: low :: rest) = some bytes ↔
      ∃ byte others, bytes = byte :: others ∧ high.toLower = (byte.toNat / 16).digitChar ∧
        low.toLower = (byte.toNat % 16).digitChar ∧ bytes? rest = some others := by
  simp only [bytes?, Option.bind_eq_bind, Option.bind_eq_some_iff, Option.pure_def,
    Option.some.injEq]
  constructor
  · rintro ⟨upper, first, lower, second, others, following, rfl⟩
    rcases digit?_eq_some_iff.mp first with ⟨smallUpper, high⟩
    rcases digit?_eq_some_iff.mp second with ⟨smallLower, low⟩
    have value : (UInt8.ofNat (upper * 16 + lower)).toNat = upper * 16 + lower := by
      rw [UInt8.toNat_ofNat']
      omega
    refine ⟨_, others, rfl, ?_, ?_, following⟩
    · rw [value, high]
      congr 1
      omega
    · rw [value, low]
      congr 1
      omega
  · rintro ⟨byte, others, rfl, high, low, following⟩
    have bound := byte.toNat_lt
    refine ⟨byte.toNat / 16, digit?_eq_some_iff.mpr ⟨by omega, high⟩,
      byte.toNat % 16, digit?_eq_some_iff.mpr ⟨by omega, low⟩, others, following, ?_⟩
    rw [Nat.div_add_mod', UInt8.ofNat_toNat]

/-- Bytes are read from exactly those texts that write them, in any mix of cases. -/
theorem bytes?_eq_some_iff {text : List Char} {bytes : List UInt8} :
    bytes? text = some bytes ↔ text.map Char.toLower = (ofBytes bytes).toList := by
  induction text using bytes?.induct generalizing bytes with
  | case1 => cases bytes <;> simp [bytes?]
  | case2 character => cases bytes <;> simp [bytes?]
  | case3 high low rest ih =>
      rw [bytes?_cons_cons_eq_some_iff]
      cases bytes with
      | nil => simp
      | cons byte others => simp [ih, and_assoc]

theorem isSome_bytes?_iff {text : List Char} :
    (bytes? text).isSome = true ↔
      (∀ character ∈ text, isDigit character = true) ∧ text.length % 2 = 0 := by
  induction text using bytes?.induct with
  | case1 => simp [bytes?]
  | case2 character => simp [bytes?]
  | case3 high low rest ih =>
      have parts : (bytes? (high :: low :: rest)).isSome = true ↔
          (digit? high).isSome = true ∧ (digit? low).isSome = true ∧
            (bytes? rest).isSome = true := by
        cases first : digit? high <;> cases second : digit? low <;>
          cases others : bytes? rest <;> simp [bytes?, first, second, others]
      have even : (rest.length + 1 + 1) % 2 = rest.length % 2 := Nat.add_mod_right _ 2
      simp only [parts, ih, isSome_digit?_iff, List.forall_mem_cons, List.length_cons, even,
        and_assoc]

end Hex

namespace Bytecode

variable {source : String} {code : Bytecode} {text rest mark : List Char}

/-! ## The length of a text -/

theorem textSize_eq (text : List Char) : textSize text = (String.ofList text).utf8ByteSize := by
  induction text with
  | nil => rfl
  | cons character rest ih =>
      rw [textSize, ih, String.ofList_cons, String.utf8ByteSize_append,
        String.utf8ByteSize_singleton]

theorem textSize_append (front back : List Char) :
    textSize (front ++ back) = textSize front + textSize back := by
  simp [textSize_eq]

theorem textSize_of_digits (digits : ∀ character ∈ text, Hex.isDigit character = true) :
    textSize text = text.length := by
  induction text with
  | nil => rfl
  | cons character rest ih =>
      rw [List.forall_mem_cons] at digits
      rw [textSize, ih digits.2, (Hex.isBlank_utf8Size_of_isDigit digits.1).2, List.length_cons,
        Nat.add_comm]

/-- Every character takes a byte, so the beginning of a text has fewer bytes if it has fewer
characters. -/
theorem textSize_take_lt_iff {count : Nat} :
    textSize (text.take count) < textSize text ↔ count < text.length := by
  have parts := textSize_append (text.take count) (text.drop count)
  rw [List.take_append_drop] at parts
  cases left : text.drop count with
  | nil =>
      rw [left, textSize] at parts
      have short := List.drop_eq_nil_iff.mp left
      omega
  | cons character rest =>
      rw [left, textSize] at parts
      have positive := character.utf8Size_pos
      have long : ¬text.length ≤ count := by
        rw [← List.drop_eq_nil_iff, left]
        exact List.cons_ne_nil _ _
      omega

/-! ## What is left of a source text -/

/-- The marks of hexadecimal notation. -/
def IsMark (mark : List Char) : Prop :=
  mark = ['0', 'x'] ∨ mark = ['0', 'X']

/-- A text that does not begin with a mark. -/
def Unmarked (text : List Char) : Prop :=
  ∀ mark rest, IsMark mark → text ≠ mark ++ rest

/-- A text stands between blanks, with at most one mark before it. -/
def Encloses (source : String) (text : List Char) : Prop :=
  ∃ leading mark trailing, source.toList = leading ++ (mark ++ text) ++ trailing ∧
    Text.Blank leading ∧ (mark = [] ∨ IsMark mark) ∧ Text.Blank trailing

/-- What is left when the blanks at both ends are gone, and then one mark if there is any. -/
def Leaves (source : String) (rest : List Char) : Prop :=
  ∃ leading mark trailing, source.toList = leading ++ (mark ++ rest) ++ trailing ∧
    Text.Blank leading ∧ Text.Trimmed (mark ++ rest) ∧ (IsMark mark ∨ mark = [] ∧ Unmarked rest) ∧
    Text.Blank trailing

theorem dropMark_append (marked : IsMark mark ∨ mark = [] ∧ Unmarked rest) :
    dropMark (mark ++ rest) = rest := by
  rcases marked with (rfl | rfl) | ⟨rfl, unmarked⟩
  · rfl
  · rfl
  · rw [List.nil_append]
    unfold dropMark
    split
    next other => exact absurd rfl (unmarked ['0', 'x'] other (.inl rfl))
    next other => exact absurd rfl (unmarked ['0', 'X'] other (.inr rfl))
    · rfl

theorem exists_dropMark (text : List Char) :
    ∃ mark, text = mark ++ dropMark text ∧
      (IsMark mark ∨ mark = [] ∧ Unmarked (dropMark text)) := by
  by_cases marked : ∃ mark rest, IsMark mark ∧ text = mark ++ rest
  · rcases marked with ⟨mark, rest, isMark, rfl⟩
    exact ⟨mark, by rw [dropMark_append (.inl isMark)], .inl isMark⟩
  · have unmarked : Unmarked text := by
      intro mark rest isMark same
      exact marked ⟨mark, rest, isMark, same⟩
    have same : dropMark ([] ++ text) = text := dropMark_append (.inr ⟨rfl, unmarked⟩)
    rw [List.nil_append] at same
    exact ⟨[], by rw [same, List.nil_append], .inr ⟨rfl, same.symm ▸ unmarked⟩⟩

/-- The body of a source text is what is left of it. -/
theorem leaves_iff : Leaves source rest ↔ rest = body source := by
  constructor
  · rintro ⟨leading, mark, trailing, parts, blank, trimmed, marked, blank'⟩
    rw [body, parts, Text.trimBlanks_append blank trimmed blank', dropMark_append marked]
  · rintro rfl
    rcases Text.exists_trimBlanks source.toList with
      ⟨leading, trailing, parts, blank, blank', trimmed⟩
    rcases exists_dropMark (Text.trimBlanks source.toList) with ⟨mark, whole, marked⟩
    refine ⟨leading, mark, trailing, ?_, blank, ?_, marked, blank'⟩
    · rw [body, ← whole]
      exact parts
    · rw [body, ← whole]
      exact trimmed

theorem encloses_body (source : String) : Encloses source (body source) := by
  rcases leaves_iff.mpr (rfl : body source = body source) with
    ⟨leading, mark, trailing, parts, blank, _, marked, blank'⟩
  refine ⟨leading, mark, trailing, parts, blank, ?_, blank'⟩
  exact marked.elim .inr fun bare => .inl bare.1

/-- Digits hold no blank and no mark, so they are left if they are enclosed. -/
theorem Encloses.eq_body {digits : List Char} (encloses : Encloses source digits)
    (hex : ∀ character ∈ digits, Hex.isDigit character = true) : digits = body source := by
  rcases encloses with ⟨leading, mark, trailing, parts, blank, marked, blank'⟩
  refine leaves_iff.mp ⟨leading, mark, trailing, parts, blank, ?_, ?_, blank'⟩
  · apply Text.trimmed_of_forall
    rw [List.forall_mem_append]
    refine ⟨?_, fun character member => (Hex.isBlank_utf8Size_of_isDigit (hex character member)).1⟩
    rcases marked with rfl | rfl | rfl
    · exact List.forall_mem_nil _
    · exact List.forall_mem_cons.mpr ⟨by decide, List.forall_mem_singleton.mpr (by decide)⟩
    · exact List.forall_mem_cons.mpr ⟨by decide, List.forall_mem_singleton.mpr (by decide)⟩
  · rcases marked with rfl | isMark
    · right
      refine ⟨rfl, ?_⟩
      -- A mark at the start would bring a letter that is no digit.
      rintro _ rest (rfl | rfl) rfl
      · exact absurd (hex 'x' (by simp)) (by decide)
      · exact absurd (hex 'X' (by simp)) (by decide)
    · exact .inl isMark

/-! ## Reading -/

/-- A source text of whole pairs of digits, with what may stand around them. -/
def WellFormed (source : String) : Prop :=
  ∃ digits, Encloses source digits ∧ (∀ character ∈ digits, Hex.isDigit character = true) ∧
    digits.length % 2 = 0

theorem wellFormed_iff : WellFormed source ↔ (Hex.bytes? (body source)).isSome = true := by
  rw [Hex.isSome_bytes?_iff]
  constructor
  · rintro ⟨digits, encloses, hex, even⟩
    rw [← encloses.eq_body hex]
    exact ⟨hex, even⟩
  · rintro ⟨hex, even⟩
    exact ⟨body source, encloses_body source, hex, even⟩

/-- Digits in pairs take an even number of bytes. -/
theorem WellFormed.textSize_body (wellFormed : WellFormed source) :
    textSize (body source) % 2 = 0 := by
  rcases Hex.isSome_bytes?_iff.mp (wellFormed_iff.mp wellFormed) with ⟨hex, even⟩
  rw [textSize_of_digits hex]
  exact even

/-- The error about what is left of a source text. -/
def failure (rest : List Char) : HexError :=
  if textSize rest % 2 = 1 then .oddLength (textSize rest)
  else .invalidDigit (HexError.preview rest)

theorem ofHex_eq (source : String) :
    ofHex source =
      match Hex.bytes? (body source) with
      | some code => .ok code
      | none => .error (failure (body source)) := by
  cases read : Hex.bytes? (body source) with
  | some code =>
      have wellFormed := wellFormed_iff.mpr (Option.isSome_of_eq_some read)
      simp [ofHex, read, wellFormed.textSize_body]
  | none =>
      simp only [ofHex, read, failure]
      split <;> rfl

theorem failure_eq (rest : List Char) :
    failure rest =
      if (String.ofList rest).utf8ByteSize % 2 = 1 then
        .oddLength (String.ofList rest).utf8ByteSize
      else .invalidDigit
        (if rest.length ≤ 40 then String.ofList rest
          else String.ofList (rest.take 40) ++ "...") := by
  rw [failure, textSize_eq, HexError.preview, HexError.previewLength]
  rcases Nat.lt_or_ge 40 rest.length with long | short
  · rw [if_pos long, if_neg (Nat.not_le.mpr long)]
  · rw [if_neg (Nat.not_lt.mpr short), if_pos short]

theorem ofHex_eq_ok_iff : ofHex source = .ok code ↔ Hex.bytes? (body source) = some code := by
  rw [ofHex_eq]
  cases Hex.bytes? (body source) <;> simp

/-- Reading accepts exactly the well-formed texts, and yields the bytes that their digits write in
any mix of cases. Any other text fails. What is left of it, without blanks at the ends and without
one mark, is determined; its length in bytes is reported if that is odd, and its first forty
characters otherwise. These are followed by dots if there are more characters, which is the same as
more bytes. -/
theorem ofHex_reads (source : String) :
    (∀ code, ofHex source = .ok code ↔
      ∃ digits, Encloses source digits ∧
        digits.map Char.toLower = (Hex.ofBytes code).toList) ∧
    ((∃ code, ofHex source = .ok code) ↔ WellFormed source) ∧
    ∃ rest, (∀ text, Leaves source text ↔ text = rest) ∧
      (∀ error, ofHex source = .error error ↔
        ¬WellFormed source ∧
          error =
            if (String.ofList rest).utf8ByteSize % 2 = 1 then
              .oddLength (String.ofList rest).utf8ByteSize
            else .invalidDigit
              (if rest.length ≤ 40 then String.ofList rest
                else String.ofList (rest.take 40) ++ "...")) ∧
      ((String.ofList (rest.take 40)).utf8ByteSize < (String.ofList rest).utf8ByteSize ↔
        40 < rest.length) := by
  refine ⟨?_, ?_, body source, fun _ => leaves_iff, ?_, ?_⟩
  · intro code
    rw [ofHex_eq_ok_iff]
    constructor
    · intro read
      exact ⟨body source, encloses_body source, Hex.bytes?_eq_some_iff.mp read⟩
    · rintro ⟨digits, encloses, written⟩
      have read := Hex.bytes?_eq_some_iff.mpr written
      have hex := (Hex.isSome_bytes?_iff.mp (Option.isSome_of_eq_some read)).1
      rwa [encloses.eq_body hex] at read
  · simp only [ofHex_eq_ok_iff, wellFormed_iff, Option.isSome_iff_exists]
  · intro error
    rw [wellFormed_iff, ofHex_eq, ← failure_eq]
    cases Hex.bytes? (body source) <;> simp [eq_comm]
  · rw [← textSize_eq, ← textSize_eq, textSize_take_lt_iff]

end Bytecode

end EvmLift
