import SchemaAlgebra.Instant
import SchemaAlgebra.Json.Parser
import SchemaAlgebra.Json.Text
import SchemaAlgebra.TransformError

/-!
# Classes

A class gives values a provenance: it tells which values are its instances, and builds an instance
from a serialized value.

* `Class.builtins` — the classes every registry knows: `Object`, `Array`, `String`, `Number`,
  `Boolean` and `Date`.
* `Class.date` — timestamps.  An instance is an object whose only member `$date` is the text of an
  instant.
-/

namespace SchemaAlgebra

/-- A class of values. -/
structure Class where
  /-- The name the `instanceOf` keyword refers to. -/
  name : String
  /-- Whether a value is an instance. -/
  isInstance : Json → Bool
  /-- Builds an instance from its serialized form. -/
  construct : Json → Except TransformError Json

/-- A class as a schema names it. -/
inductive ClassRef where
  /-- By a name, resolved when the schema is compiled. -/
  | named (name : String)
  /-- By a class that the schema itself carries. -/
  | carried (cls : Class)

namespace ClassRef

/-- The name written into the schema. -/
def name : ClassRef → String
  | named name => name
  | carried cls => cls.name

end ClassRef

namespace Class

/-- Classes under their names; a later class replaces an earlier one of its name. -/
def table (classes : List Class) : Table Class :=
  Table.ofPairs (classes.map fun cls => (cls.name, cls))

/-! ## Plain kinds -/

/-- The failure of the class called `name` on the value `input`. -/
def reject (name : String) (input : Json) (reason : Rejection) : TransformError :=
  .construct name input.describe reason

/-- A value that the serialized form stands for: the value written in a string, or the form itself
if it is no string. -/
def readSerialized (name : String) : Json → Except TransformError Json
  | .string text =>
    match Json.parse? text with
    | some value => .ok value
    | none => .error (reject name (.string text) .unreadable)
  | value => .ok value

/-- Accepts an instance and rejects anything else. -/
def checked (name : String) (isInstance : Json → Bool) (value : Json) :
    Except TransformError Json :=
  if isInstance value then .ok value else .error (reject name value (.notInstance name))

/-- The class of the values satisfying `isInstance`, whose serialized form is a text or the value
itself. -/
def ofKind (name : String) (isInstance : Json → Bool) : Class where
  name := name
  isInstance := isInstance
  construct := fun serialized => do checked name isInstance (← readSerialized name serialized)

/-- Objects. -/
def object : Class := ofKind "Object" Json.isObject

/-- Arrays. -/
def array : Class := ofKind "Array" Json.isArray

/-- Numbers. -/
def number : Class := ofKind "Number" fun
  | .number _ => true
  | _ => false

/-- Truth values. -/
def boolean : Class := ofKind "Boolean" fun
  | .bool _ => true
  | _ => false

/-- Strings.  A string is its own serialized form; any other value becomes its text. -/
def string : Class where
  name := "String"
  isInstance
    | .string _ => true
    | _ => false
  construct
    | .string s => .ok (.string s)
    | value => .ok (.string value.text)

/-! ## Dates -/

/-- The key of the only member of a date. -/
def dateKey : String := "$date"

/-- The date of an instant. -/
def dateOfInstant (i : Instant) : Json :=
  .object [(dateKey, .string i.text)]

/-- The instant of a date. -/
def instantOfDate? : Json → Option Instant
  | .object [(key, .string text)] => if key = dateKey then Instant.parse? text else none
  | _ => none

/-- The canonical text of a date. -/
def dateText? (value : Json) : Option String :=
  (instantOfDate? value).map Instant.text

/-- The date that a serialized value stands for: a timestamp or a number of milliseconds; a date
stands for itself. -/
def constructDate (serialized : Json) : Except TransformError Json :=
  if (instantOfDate? serialized).isSome then .ok serialized
  else
    let rejected := fun reason => Except.error (reject "Date" serialized reason)
    match serialized with
    | .string text =>
      match Instant.parse? text with
      | some i => .ok (dateOfInstant i)
      | none => rejected .unreadable
    | .number (.int millis) =>
      if Nat.pow 2 63 ≤ millis then rejected .fractionalMillis
      else
        match Instant.ofMillis? millis with
        | some i => .ok (dateOfInstant i)
        | none => rejected .outOfCalendar
    | .number (.double _) => rejected .fractionalMillis
    | _ => rejected .notTextOrNumber

/-- Timestamps. -/
def date : Class where
  name := "Date"
  isInstance value := (instantOfDate? value).isSome
  construct := constructDate

/-! ## The classes every registry knows -/

/-- The built-in classes. -/
def builtins : Table Class :=
  table [object, array, string, number, boolean, date]

end Class

end SchemaAlgebra
