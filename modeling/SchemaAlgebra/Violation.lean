import SchemaAlgebra.Extension
import SchemaAlgebra.Json.Pointer
import SchemaAlgebra.Json.Text

/-!
# Violations

A violation says that a value does not meet a keyword of its schema: which keyword, which value, and
why.  Both places are routes from where the matching began, so the violations of a subschema become
those of the schema by prolonging their routes at the front (`Violation.under`).
-/

namespace SchemaAlgebra

/-- A limit on how much a value holds. -/
inductive Extent where
  | characters
  | items
  | properties
deriving DecidableEq, Inhabited

namespace Extent

/-- The name of `limit` units. -/
def unit (extent : Extent) (limit : Nat) : String :=
  match extent, limit with
  | characters, 1 => "character"
  | characters, _ => "characters"
  | items, 1 => "item"
  | items, _ => "items"
  | properties, 1 => "property"
  | properties, _ => "properties"

end Extent

/-- Why a value is refused. -/
inductive Complaint where
  /-- The schema is `false`. -/
  | falseSchema
  /-- The value has none of the types. -/
  | type (names : List String)
  /-- The value is not the constant. -/
  | constant (expected : Json)
  /-- The value is none of the choices. -/
  | choice (choices : Json)
  /-- The number is below the limit, or at it if that is `exclusive`. -/
  | belowMinimum (limit : Json) (exclusive : Bool)
  /-- The number is above the limit, or at it if that is `exclusive`. -/
  | aboveMaximum (limit : Json) (exclusive : Bool)
  /-- The number is not a multiple. -/
  | notMultiple (divisor : Double)
  /-- The value holds too little. -/
  | tooSmall (extent : Extent) (limit : Nat)
  /-- The value holds too much. -/
  | tooLarge (extent : Extent) (limit : Nat)
  /-- Two items are equivalent. -/
  | repeated
  /-- The text has no part that the pattern describes. -/
  | unmatched (pattern : String)
  /-- The text has not the format. -/
  | misformatted (format : String)
  /-- The object lacks a property. -/
  | missing (name : String)
  /-- The object has properties that no keyword provides for. -/
  | unexpectedProperties (names : List String)
  /-- The array has items that no keyword provides for. -/
  | unexpectedItems (items : List Json)
  /-- The value satisfies none of the schemas of the keyword. -/
  | noneValid (keyword : String)
  /-- The value satisfies more than one of the schemas of `oneOf`. -/
  | severalValid
  /-- The value satisfies the schema that it must not. -/
  | forbidden (schema : Json)
  /-- No item satisfies the schema. -/
  | nothingContained
  /-- The value does not meet the demand of an extension keyword. -/
  | unmet (assertion : Assertion)
deriving DecidableEq, Inhabited

namespace Complaint

/-- Names or texts with commas between them, and the verb that agrees with their number. -/
def unexpected (texts : List String) : String :=
  "(" ++ String.intercalate ", " texts ++ (if texts.length = 1 then " was" else " were")
    ++ " unexpected)"

/-- The complaint about a value in words. -/
def message (complaint : Complaint) (value : Json) : String :=
  match complaint with
  | falseSchema => "False schema does not allow " ++ value.text
  | type [name] => value.text ++ " is not of type " ++ Json.quote name
  | type names =>
    value.text ++ " is not of types " ++ String.intercalate ", " (names.map Json.quote)
  | constant expected => expected.text ++ " was expected"
  | choice choices => value.text ++ " is not one of " ++ choices.text
  | belowMinimum limit false => value.text ++ " is less than the minimum of " ++ limit.text
  | belowMinimum limit true =>
    value.text ++ " is less than or equal to the minimum of " ++ limit.text
  | aboveMaximum limit false => value.text ++ " is greater than the maximum of " ++ limit.text
  | aboveMaximum limit true =>
    value.text ++ " is greater than or equal to the maximum of " ++ limit.text
  | notMultiple divisor => value.text ++ " is not a multiple of " ++ divisor.plainText
  | tooSmall extent limit =>
    value.text ++ (if extent = .characters then " is shorter than " else " has less than ")
      ++ toString limit ++ " " ++ extent.unit limit
  | tooLarge extent limit =>
    value.text ++ (if extent = .characters then " is longer than " else " has more than ")
      ++ toString limit ++ " " ++ extent.unit limit
  | repeated => value.text ++ " has non-unique elements"
  | unmatched pattern => value.text ++ " does not match \"" ++ pattern ++ "\""
  | misformatted format => value.text ++ " is not a \"" ++ format ++ "\""
  | missing name => Json.quote name ++ " is a required property"
  | unexpectedProperties names =>
    "Additional properties are not allowed "
      ++ unexpected (names.map fun name => "'" ++ name ++ "'")
  | unexpectedItems items => "Additional items are not allowed " ++ unexpected (items.map Json.text)
  | noneValid keyword =>
    value.text ++ " is not valid under any of the schemas listed in the '" ++ keyword
      ++ "' keyword"
  | severalValid =>
    value.text ++ " is valid under more than one of the schemas listed in the 'oneOf' keyword"
  | forbidden schema => schema.text ++ " is not allowed for " ++ value.text
  | nothingContained => "None of " ++ value.text ++ " are valid under the given schema"
  | unmet assertion => assertion.demand

end Complaint

/-- A value that does not meet its schema. -/
structure Violation where
  /-- The way to the keyword, from the schema that was matched. -/
  schemaRoute : List String := []
  /-- The way to the value, from the value that was matched. -/
  instanceRoute : List String := []
  /-- Why the value is refused. -/
  complaint : Complaint
  /-- The value that the complaint is about. -/
  subject : Json
  /-- The value at the end of the way. -/
  data : Json
deriving DecidableEq, Inhabited

namespace Violation

/-- The violation as seen from further out: `schema` leads to the schema, `value` to the value. -/
def under (schema value : List String) (violation : Violation) : Violation :=
  { violation with
    schemaRoute := schema ++ violation.schemaRoute
    instanceRoute := value ++ violation.instanceRoute }

/-- The complaint in words. -/
def message (violation : Violation) : String :=
  violation.complaint.message violation.subject

/-- The pointer to the keyword. -/
def schemaPointer (violation : Violation) : Pointer :=
  Pointer.join "" violation.schemaRoute

/-- The pointer to the value. -/
def instancePointer (violation : Violation) : Pointer :=
  Pointer.join "" violation.instanceRoute

end Violation

end SchemaAlgebra
