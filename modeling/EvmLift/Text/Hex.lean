/-!
# Hexadecimal text

Numbers are written in lower case without leading zeros, and bytes as two digits
each. Reading accepts digits of either case.
-/

namespace EvmLift.Hex

/-- The value of a digit of either case. -/
def digit? (character : Char) : Option Nat :=
  if '0' ≤ character ∧ character ≤ '9' then some (character.toNat - '0'.toNat)
  else if 'a' ≤ character ∧ character ≤ 'f' then some (character.toNat - 'a'.toNat + 10)
  else if 'A' ≤ character ∧ character ≤ 'F' then some (character.toNat - 'A'.toNat + 10)
  else none

/-- The number that digits write, most significant first. No digits write zero. -/
def nat? (digits : List Char) : Option Nat :=
  digits.foldlM (fun value character => (digit? character).map (value * 16 + ·)) 0

/-- The bytes that pairs of digits write. -/
def bytes? : List Char → Option (List UInt8)
  | [] => some []
  | [_] => none
  | high :: low :: rest => do
      let upper ← digit? high
      let lower ← digit? low
      let bytes ← bytes? rest
      return UInt8.ofNat (upper * 16 + lower) :: bytes

/-- The digits of a number. -/
def digits (value : Nat) : List Char :=
  Nat.toDigits 16 value

/-- A number with the mark of hexadecimal notation. -/
def literal (value : Nat) : String :=
  "0x" ++ String.ofList (digits value)

/-- A marked number with at least `width` digits. -/
def padded (width value : Nat) : String :=
  "0x" ++ String.ofList ((digits value).leftpad width '0')

/-- Bytes as two digits each. -/
def ofBytes (bytes : List UInt8) : String :=
  String.ofList (bytes.flatMap fun byte => (digits byte.toNat).leftpad 2 '0')

end EvmLift.Hex
