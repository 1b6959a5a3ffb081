import EvmLift.Text.Blank
import EvmLift.Text.Hex

/-!
# Bytecode from text

Code is given as hexadecimal text, with blanks around it and a mark in front of it
allowed. A text of odd length is reported as such whatever its characters are, and
only then is a character that is no digit.
-/

namespace EvmLift

/-- The code of a contract. -/
abbrev Bytecode := List UInt8

/-- Why a text is not bytecode. -/
inductive HexError where
  /-- The text has an odd length, counted in bytes of its UTF-8 form. -/
  | oddLength (count : Nat)
  /-- Some character is no digit. -/
  | invalidDigit (preview : String)
  deriving Repr, DecidableEq

namespace HexError

/-- The wording of an error. -/
def message : HexError → String
  | .oddLength count => s!"odd-length hex input ({count} digits)"
  | .invalidDigit preview => "invalid hex input: " ++ preview

/-- The longest text that is shown whole in an error. -/
def previewLength : Nat := 40

/-- The beginning of a text, with dots if it goes on. -/
def preview (text : List Char) : String :=
  if previewLength < text.length then String.ofList (text.take previewLength) ++ "..."
  else String.ofList text

end HexError

namespace Bytecode

/-- A text without the mark of hexadecimal notation. -/
def dropMark : List Char → List Char
  | '0' :: 'x' :: rest => rest
  | '0' :: 'X' :: rest => rest
  | text => text

/-- The number of bytes in the UTF-8 form of a text. -/
def textSize : List Char → Nat
  | [] => 0
  | character :: rest => character.utf8Size + textSize rest

/-- The digits of a source text: what is left without blanks at the ends and
without one mark. -/
def body (source : String) : List Char :=
  dropMark (Text.trimBlanks source.toList)

/-- The code that a text writes. -/
def ofHex (source : String) : Except HexError Bytecode :=
  let text := body source
  if textSize text % 2 = 1 then .error (.oddLength (textSize text))
  else
    match Hex.bytes? text with
    | some bytes => .ok bytes
    | none => .error (.invalidDigit (HexError.preview text))

end Bytecode

end EvmLift
