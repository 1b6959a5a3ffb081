/-!
# JSON documents

Documents as data, and their text with one item or field to a line, indented by two
blanks a level. Fields are written in the order in which an object holds them.
-/

namespace EvmLift

/-- A JSON document. -/
inductive Json where
  | null
  | bool (value : Bool)
  /-- The number `mantissa` divided by ten to the power `places`. A number with no
  places is written without a point. -/
  | number (mantissa : Int) (places : Nat)
  | string (text : String)
  | array (items : List Json)
  | object (fields : List (String × Json))
  deriving Repr, Inhabited

namespace Json

/-- A natural number. -/
def nat (value : Nat) : Json :=
  .number value 0

/-- The text of a number. -/
def numberText (mantissa : Int) (places : Nat) : String :=
  if places = 0 then toString mantissa
  else
    let digits := (Nat.toDigits 10 mantissa.natAbs).leftpad (places + 1) '0'
    let whole := digits.take (digits.length - places)
    let fraction := digits.drop (digits.length - places)
    (if mantissa < 0 then "-" else "") ++ String.ofList whole ++ "." ++ String.ofList fraction

/-- The character with an escape, if it needs one inside quotes. -/
def escape (character : Char) : List Char :=
  match character with
  | '"' => ['\\', '"']
  | '\\' => ['\\', '\\']
  | '\n' => ['\\', 'n']
  | '\r' => ['\\', 'r']
  | '\t' => ['\\', 't']
  | '\x08' => ['\\', 'b']
  | '\x0c' => ['\\', 'f']
  | other =>
      if other.toNat < 0x20 then
        '\\' :: 'u' :: (Nat.toDigits 16 other.toNat).leftpad 4 '0'
      else [other]

/-- A text in quotes. -/
def quote (text : String) : String :=
  "\"" ++ String.ofList (text.toList.flatMap escape) ++ "\""

/-- The start of a line at a level. -/
def margin (level : Nat) : String :=
  String.ofList (List.replicate (2 * level) ' ')

mutual

/-- The text of a document that starts at a level. -/
def render (level : Nat) : Json → String
  | .null => "null"
  | .bool true => "true"
  | .bool false => "false"
  | .number mantissa places => numberText mantissa places
  | .string text => quote text
  | .array [] => "[]"
  | .array items =>
      "[\n" ++ String.intercalate ",\n" (renderItems (level + 1) items) ++
        "\n" ++ margin level ++ "]"
  | .object [] => "\x7b\x7d"
  | .object fields =>
      "\x7b\n" ++ String.intercalate ",\n" (renderFields (level + 1) fields) ++
        "\n" ++ margin level ++ "\x7d"

/-- The lines of the items of an array. -/
def renderItems (level : Nat) : List Json → List String
  | [] => []
  | item :: rest => (margin level ++ render level item) :: renderItems level rest

/-- The lines of the fields of an object. -/
def renderFields (level : Nat) : List (String × Json) → List String
  | [] => []
  | (key, value) :: rest =>
      (margin level ++ quote key ++ ": " ++ render level value) :: renderFields level rest

end

/-- The text of a document. -/
def pretty (document : Json) : String :=
  render 0 document

end Json

end EvmLift
