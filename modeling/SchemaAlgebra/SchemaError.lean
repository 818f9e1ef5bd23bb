import SchemaAlgebra.Json.Text

/-!
# Misuse of combinators

A combinator refuses arguments it can make no schema of, when it is applied and not later.
-/

namespace SchemaAlgebra

/-- What a function carried by a schema is. -/
inductive CarriedFunction where
  | transform
  | cls
deriving DecidableEq, Inhabited

/-- Why a schema cannot be built. -/
inductive SchemaError where
  /-- A combinator for schemas of objects was given the schema that `found` describes. -/
  | notAnObject (combinator found : String)
  /-- A partial view was asked of a schema that is neither of an object nor a tagged union. -/
  | notObjectOrTaggedUnion (found : String)
  /-- The list of required properties is to be edited, and there is none. -/
  | missingRequired (combinator : String)
  /-- Two members of a tagged union have the same value of the tag. -/
  | duplicateTag (tag value : String)
  /-- A function is carried without a name. -/
  | unnamedFunction (combinator : String) (what : CarriedFunction)
  /-- No constructor is known for a class. -/
  | unresolvedClass (className : String)
  /-- A value that is not an object was offered as a schema. -/
  | notAFragment (found : String)
deriving DecidableEq, Inhabited

namespace SchemaError

/-! ## Quoting -/

/-- Characters beyond ASCII that are shown by their number: blanks other than the space, format and
control characters, private use, and marks that combine with the character before them. -/
def hiddenRanges : List (Nat × Nat) :=
  [(0x7F, 0xA0), (0xAD, 0xAD), (0x300, 0x36F), (0x483, 0x489), (0x591, 0x5BD), (0x600, 0x605),
    (0x610, 0x61A), (0x61C, 0x61C), (0x64B, 0x65F), (0x6DD, 0x6DD), (0x1680, 0x1680),
    (0x180B, 0x180F), (0x1AB0, 0x1ACE), (0x1DC0, 0x1DFF), (0x2000, 0x200F), (0x2028, 0x202F),
    (0x205F, 0x206F), (0x20D0, 0x20F0), (0x3000, 0x3000), (0x302A, 0x302F), (0x3099, 0x309A),
    (0xE000, 0xF8FF), (0xFE00, 0xFE0F), (0xFE20, 0xFE2F), (0xFEFF, 0xFEFF), (0xFFF0, 0xFFFB),
    (0xE0000, 0x10FFFF)]

/-- Whether a character is shown by its number. -/
def isHidden (c : Char) : Bool :=
  c.toNat < 32 || hiddenRanges.any fun (low, high) => low ≤ c.toNat && c.toNat ≤ high

/-- A character between quotes. -/
def quoteChar (c : Char) : String :=
  if c = '"' then "\\\""
  else if c = '\\' then "\\\\"
  else if c = '\n' then "\\n"
  else if c = '\r' then "\\r"
  else if c = '\t' then "\\t"
  else if c.toNat = 0 then "\\0"
  else if isHidden c then
    "\\u\x7b" ++ String.ofList (Nat.toDigits 16 c.toNat) ++ "\x7d"
  else c.toString

/-- A text in quotes, its special characters shown by escapes. -/
def quoted (s : String) : String :=
  "\"" ++ String.join (s.toList.map quoteChar) ++ "\""

/-! ## Messages -/

/-- The error in words. -/
def message : SchemaError → String
  | notAnObject combinator found =>
    combinator ++ ": expected an object fragment with `properties`, got " ++ found
  | notObjectOrTaggedUnion found =>
    "partial: expected an object fragment or a tagged union, got " ++ found
  | missingRequired combinator => combinator ++ ": fragment has no `required` keyword"
  | duplicateTag tag value =>
    "tagged_union: tag value " ++ quoted value ++ " of `" ++ tag
      ++ "` is used by more than one member"
  | unnamedFunction combinator what =>
    combinator ++ ": inline "
      ++ (match what with
          | .transform => "transform"
          | .cls => "class")
      ++ " must have a non-empty name"
  | unresolvedClass className =>
    "serialized_instance_of: no constructor available for class " ++ className
  | notAFragment found => "schema fragments must be JSON objects, got " ++ found

end SchemaError

end SchemaAlgebra
