import SchemaAlgebra.Format
import SchemaAlgebra.Dialect
import SchemaAlgebra.Violation

/-!
# Keywords that test the value itself

Each of these keywords looks at a value, and at its members or items as data, but at no other
schema. `Matcher.assert` gives the complaints of one keyword.  Arguments that have not the shape the
dialect demands complain about nothing; a schema is not matched against unless its arguments have
it.
-/

namespace SchemaAlgebra

namespace Matcher

/-- The violation at a keyword. -/
def complain (keyword : String) (complaint : Complaint) (value : Json) : Violation :=
  { schemaRoute := [keyword], complaint := complaint, subject := value, data := value }

/-- A violation at a keyword, unless the value passes. -/
def require (passes : Bool) (keyword : String) (complaint : Complaint) (value : Json) :
    List Violation :=
  if passes then [] else [complain keyword complaint value]

/-! ## Types and choices -/

/-- Whether a value has a type.  In the oldest dialect an integer is written without a fraction. -/
def hasType (draft : Draft) (value : Json) (name : String) : Bool :=
  match name, value with
  | "null", .null => true
  | "boolean", .bool _ => true
  | "number", .number _ => true
  | "integer", .number (.int _) => true
  | "integer", .number n => draft ≠ .draft4 && n.isIntegral
  | "string", .string _ => true
  | "array", .array _ => true
  | "object", .object _ => true
  | _, _ => false

/-- The names of the types in an argument of `type`, in the order of messages. -/
def typesOf : Json → List String
  | .string name => [name]
  | .array items => typeNames.filter fun name => items.contains (.string name)
  | _ => []

/-- Whether a value is the constant: numbers may differ by a little, and inside containers by less.
-/
def isConstant : Json → Json → Bool
  | .number a, .number b => a.isNear b
  | expected, value => expected.equivalent value

/-! ## Limits -/

/-- The complaint of a lower limit. -/
def belowMinimum (limit : Json) (exclusive : Bool) (value : Json) : Bool :=
  match limit, value with
  | .number limit, .number n =>
    match n.compareValue limit with
    | .lt => true
    | .eq => exclusive
    | .gt => false
  | _, _ => false

/-- The complaint of an upper limit. -/
def aboveMaximum (limit : Json) (exclusive : Bool) (value : Json) : Bool :=
  match limit, value with
  | .number limit, .number n =>
    match n.compareValue limit with
    | .gt => true
    | .eq => exclusive
    | .lt => false
  | _, _ => false

/-- The natural number that an argument gives. -/
def countOf? : Json → Option Nat
  | .number n => n.toInt?.map Int.toNat
  | _ => none

/-- How much a value holds, if it holds things of this sort. -/
def extentOf? : Extent → Json → Option Nat
  | .characters, .string s => some s.length
  | .items, .array items => some items.length
  | .properties, .object members => some members.length
  | _, _ => none

/-- The complaints of a lower limit on what a value holds. -/
def atLeast (extent : Extent) (keyword : String) (argument value : Json) : List Violation :=
  match countOf? argument, extentOf? extent value with
  | some limit, some size => require (limit ≤ size) keyword (.tooSmall extent limit) value
  | _, _ => []

/-- The complaints of an upper limit on what a value holds. -/
def atMost (extent : Extent) (keyword : String) (argument value : Json) : List Violation :=
  match countOf? argument, extentOf? extent value with
  | some limit, some size => require (size ≤ limit) keyword (.tooLarge extent limit) value
  | _, _ => []

/-! ## Names -/

/-- The complaints about the names in an argument that an object lacks. -/
def lacking (keyword : String) (argument value : Json) : List Violation :=
  match argument, value with
  | .array names, .object members =>
    (names.filterMap Json.string?).flatMap fun name =>
      require (Entries.contains name members) keyword (.missing name) value
  | _, _ => []

/-! ## Text -/

/-- Whether a pattern, in written form, occurs in a text. -/
def patternOccurs (source text : String) : Bool :=
  (Pattern.parse? source).any fun pattern => pattern.occursIn text

/-! ## Keywords -/

/-- Whether a limit is made exclusive by the switch beside it, in the oldest dialect. -/
def isExclusive (draft : Draft) (keywords : Entries Json) (switch : String) : Bool :=
  draft = .draft4 && Entries.lookup switch keywords = some (.bool true)

/-- The complaints of a lower limit among `keywords`. -/
def minimum (draft : Draft) (keywords : Entries Json) (limit value : Json) : List Violation :=
  let exclusive := isExclusive draft keywords "exclusiveMinimum"
  require (!belowMinimum limit exclusive value)
    (if exclusive then "exclusiveMinimum" else "minimum") (.belowMinimum limit exclusive) value

/-- The complaints of an upper limit among `keywords`. -/
def maximum (draft : Draft) (keywords : Entries Json) (limit value : Json) : List Violation :=
  let exclusive := isExclusive draft keywords "exclusiveMaximum"
  require (!aboveMaximum limit exclusive value)
    (if exclusive then "exclusiveMaximum" else "maximum") (.aboveMaximum limit exclusive) value

/-- The complaints of a keyword of the dialect that tests the value itself; none of another one. -/
def assert (enforcesFormats : Bool) (draft : Draft) (keywords : Entries Json) (keyword : String)
    (argument value : Json) : List Violation :=
  match keyword with
  | "type" =>
    let names := typesOf argument
    require (names.any (hasType draft value)) keyword (.type names) value
  | "const" => require (isConstant argument value) keyword (.constant argument) value
  | "enum" =>
    require (((argument.items?).getD []).any value.equivalent) keyword (.choice argument) value
  | "minimum" => minimum draft keywords argument value
  | "maximum" => maximum draft keywords argument value
  | "exclusiveMinimum" =>
    require (!belowMinimum argument true value) keyword (.belowMinimum argument true) value
  | "exclusiveMaximum" =>
    require (!aboveMaximum argument true value) keyword (.aboveMaximum argument true) value
  | "multipleOf" =>
    match argument, value with
    | .number divisor, .number n =>
      require (n.isMultipleOf divisor) keyword (.notMultiple (.ofFloat divisor.toFloat)) value
    | _, _ => []
  | "minLength" => atLeast .characters keyword argument value
  | "maxLength" => atMost .characters keyword argument value
  | "minItems" => atLeast .items keyword argument value
  | "maxItems" => atMost .items keyword argument value
  | "minProperties" => atLeast .properties keyword argument value
  | "maxProperties" => atMost .properties keyword argument value
  | "uniqueItems" =>
    match argument, value with
    | .bool true, .array items => require (Json.distinct items) keyword .repeated value
    | _, _ => []
  | "pattern" =>
    match argument, value with
    | .string source, .string text =>
      require (patternOccurs source text) keyword (.unmatched source) value
    | _, _ => []
  | "format" =>
    match argument, value with
    | .string format, .string text =>
      require (!enforcesFormats || Format.accepts format text) keyword (.misformatted format) value
    | _, _ => []
  | "required" => lacking keyword argument value
  | "dependentRequired" =>
    match argument, value with
    | .object dependencies, .object members =>
      dependencies.flatMap fun (name, names) =>
        if Entries.contains name members then lacking keyword names value else []
    | _, _ => []
  | _ => []

end Matcher

end SchemaAlgebra
