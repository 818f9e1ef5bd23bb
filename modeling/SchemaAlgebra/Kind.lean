import SchemaAlgebra.Json.Basic

/-!
# Kinds of values

Every value has one of six kinds.  A kind has two names: the one a schema's `type` keyword uses, and
the coarser one the `typeof` keyword uses, which calls `null`, arrays and objects all `object`.
-/

namespace SchemaAlgebra

/-- The kind of a value. -/
inductive Kind where
  | null
  | boolean
  | number
  | string
  | array
  | object
deriving DecidableEq, Inhabited

namespace Kind

/-- The kind of a value. -/
def of : Json → Kind
  | .null => null
  | .bool _ => boolean
  | .number _ => number
  | .string _ => string
  | .array _ => array
  | .object _ => object

/-- The name the `type` keyword uses. -/
def name : Kind → String
  | null => "null"
  | boolean => "boolean"
  | number => "number"
  | string => "string"
  | array => "array"
  | object => "object"

/-- The name the `typeof` keyword uses. -/
def runtimeName : Kind → String
  | boolean => "boolean"
  | number => "number"
  | string => "string"
  | null | array | object => "object"

/-- All kinds. -/
def all : List Kind := [null, boolean, number, string, array, object]

/-- The kind with this name. -/
def ofName? (s : String) : Option Kind :=
  all.find? fun kind => kind.name = s

end Kind

end SchemaAlgebra
