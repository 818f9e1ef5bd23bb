import SchemaAlgebra.Fragment.Basic
import SchemaAlgebra.Kind

/-!
# Primitive schemas

The leaves schemas are built from: a type, an enumeration, a reference to a definition, and the
envelope of a whole document with its definitions.
-/

namespace SchemaAlgebra

/-- What stands where a combinator expects a type: names of types, or any schema. -/
inductive TypeArg where
  | name (type : String)
  | names (types : List String)
  | schema (fragment : Fragment)

namespace Fragment

/-- A list of strings as a value. -/
def stringArray (strings : List String) : Json :=
  .array (strings.map .string)

/-- The schema of one or several types; a schema stands for itself. -/
def ofType : TypeArg → Fragment
  | .name type => empty.withKeyword "type" (.string type)
  | .names types => empty.withKeyword "type" (stringArray types)
  | .schema fragment => fragment

/-- The schema of the values of a kind. -/
def ofKind (kind : Kind) : Fragment :=
  ofType (.name kind.name)

/-- The schema of some strings. -/
def enumOf (values : List Json) : Fragment :=
  (ofType (.name "string")).withKeyword "enum" (.array values)

/-- A reference to the definition called `name`. -/
def reference (name : String) : Fragment :=
  empty.withKeyword "$ref" (.string ("#/definitions/" ++ name))

/-- The dialect that combinators write. -/
def dialect : String := "http://json-schema.org/draft-07/schema#"

/-- What the identifiers of documents begin with, if nothing else is said. -/
def defaultIdBase : String := "https://shape-stack.github.io/schema/"

/-- The envelope of a document: its dialect, identifier, title and definitions. -/
def baseSchema (idBase name : String) (definitions : List (String × Fragment)) : Fragment :=
  empty
    |>.withKeyword "$schema" (.string dialect)
    |>.withKeyword "type" (.string "object")
    |>.withKeyword "$id" (.string (idBase ++ name ++ ".schema.json"))
    |>.withKeyword "title" (.string name)
    |>.withChildren "definitions" definitions

/-- The schema of the values with this name of a kind, as the `typeof` keyword has it. -/
def runtimeType (kind : String) : Fragment :=
  empty.withKeyword "typeof" (.string kind)

end Fragment

end SchemaAlgebra
