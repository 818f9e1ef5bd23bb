import SchemaAlgebra.Json.Basic

/-!
# The text of a JSON value

Values are written compactly: no blanks, members in key order, characters beyond ASCII as they are.

* `Json.text` — the text of a value.
* `Double.text` — a double with the fewest digits that read back, always with a fraction or an
  exponent, so that it reads back as a double.
* `Json.describe` — the text cut to a bounded number of bytes, for messages.
-/

namespace SchemaAlgebra

/-! ## Numbers -/

/-- The decimal `digits · 10 ^ power` written out in full, with a point only where a digit follows
it. -/
def plainDecimal (digits : Nat) (power : Int) : String :=
  let ds := Nat.toDigits 10 digits
  if 0 ≤ power then
    String.ofList (if digits = 0 then ['0'] else ds ++ List.replicate power.toNat '0')
  else
    let places := (-power).toNat
    let padded := List.replicate (places + 1 - ds.length) '0' ++ ds
    let whole := padded.length - places
    String.ofList (padded.take whole ++ '.' :: padded.drop whole)

namespace Double

/-- The sign of the text. -/
def signText (d : Double) : String :=
  if d.isNegative then "-" else ""

/-- The least power of ten of a leading digit that is still written without an exponent. -/
def leastPlainPower : Int := -5

/-- The greatest power of ten of a leading digit that is still written without an exponent. -/
def greatestPlainPower : Int := 15

/-- A decimal in scientific notation: one digit before the point, the sign of the exponent always
written. -/
def scientificText (digits : Nat) (power : Int) : String :=
  let exponentSign := if power < 0 then "-" else "+"
  let mantissa := match Nat.toDigits 10 digits with
    | first :: second :: rest => String.ofList (first :: '.' :: second :: rest)
    | ds => String.ofList ds
  mantissa ++ "e" ++ exponentSign ++ toString power.natAbs

/-- The text of a double: the fewest digits that read back, always with a fraction or an
exponent. -/
def text (d : Double) : String :=
  let (digits, t) := d.shortest
  let power := t + (Nat.toDigits 10 digits).length - 1
  let magnitude :=
    if digits = 0 then "0.0"
    else if leastPlainPower ≤ power ∧ power ≤ greatestPlainPower then
      if 0 ≤ t then plainDecimal digits t ++ ".0" else plainDecimal digits t
    else scientificText digits power
  d.signText ++ magnitude

/-- The text of a double without an exponent and without an empty fraction. -/
def plainText (d : Double) : String :=
  let (digits, t) := d.shortest
  d.signText ++ plainDecimal digits t

end Double

namespace Number

/-- The text of a number. -/
def text : Number → String
  | int value => toString value
  | double value => value.text

end Number

namespace Json

/-! ## Strings -/

/-- A hexadecimal digit, in lower case. -/
def hexDigit (n : Nat) : Char :=
  if n < 10 then Char.ofNat (48 + n) else Char.ofNat (87 + n)

/-- How a character is written between the quotes of a string. -/
def escapeChar (c : Char) : List Char :=
  if c = '"' then ['\\', '"']
  else if c = '\\' then ['\\', '\\']
  else if c = '\n' then ['\\', 'n']
  else if c = '\r' then ['\\', 'r']
  else if c = '\t' then ['\\', 't']
  else if c.toNat = 8 then ['\\', 'b']
  else if c.toNat = 12 then ['\\', 'f']
  else if c.toNat < 32 then
    ['\\', 'u', '0', '0', hexDigit (c.toNat / 16), hexDigit (c.toNat % 16)]
  else [c]

/-- A string in quotes. -/
def quote (s : String) : String :=
  String.ofList ('"' :: s.toList.flatMap escapeChar ++ ['"'])

/-! ## Values -/

mutual

/-- The compact text of a value. -/
def text : Json → String
  | .null => "null"
  | .bool true => "true"
  | .bool false => "false"
  | .number n => n.text
  | .string s => quote s
  | .array items => "[" ++ String.intercalate "," (itemTexts items) ++ "]"
  | .object members => "\x7b" ++ String.intercalate "," (memberTexts members) ++ "\x7d"

/-- The texts of items. -/
def itemTexts : List Json → List String
  | [] => []
  | item :: rest => item.text :: itemTexts rest

/-- The texts of members, each key with its value. -/
def memberTexts : List (String × Json) → List String
  | [] => []
  | (key, value) :: rest => (quote key ++ ":" ++ value.text) :: memberTexts rest

end

/-! ## Descriptions -/

/-- The longest prefix of a list of characters that takes at most `budget` bytes. -/
def takeBytes : Nat → List Char → List Char
  | _, [] => []
  | budget, c :: rest =>
    if c.utf8Size ≤ budget then c :: takeBytes (budget - c.utf8Size) rest else []

/-- How many bytes of a value's text a message shows. -/
def describedBytes : Nat := 120

/-- The text of a value for a message: cut between two characters after `describedBytes` bytes, and
then ended by an ellipsis. -/
def describe (value : Json) : String :=
  let rendered := value.text
  if rendered.utf8ByteSize ≤ describedBytes then rendered
  else String.ofList (takeBytes describedBytes rendered.toList) ++ "…"

end Json

end SchemaAlgebra
