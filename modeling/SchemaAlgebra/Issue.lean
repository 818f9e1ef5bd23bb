import SchemaAlgebra.Violation

/-!
# Issues

An issue is a complaint about a validated value as it is reported: a violation found by the
structural matcher, or a complaint made by a transform.
-/

namespace SchemaAlgebra

/-- A reported complaint about a value. -/
structure Issue where
  /-- The keyword that was not met. -/
  keyword : String
  /-- Where the value stands in the validated value. -/
  instancePath : Pointer
  /-- Where the keyword stands in the schema. -/
  schemaPath : Pointer
  /-- The complaint in words. -/
  message : String
  /-- Particulars, if there are any. -/
  params : Option Json := none
  /-- The argument of the keyword, if it is found at its place. -/
  schema : Option Json := none
  /-- The schema that the keyword is in, if it is found at its place. -/
  parentSchema : Option Json := none
  /-- The value. -/
  data : Option Json := none
deriving DecidableEq, Inhabited

namespace Issue

/-- The issue without the schema and the data that it is about. -/
def terse (issue : Issue) : Issue :=
  { issue with schema := none, parentSchema := none, data := none }

/-- The issue of a violation found in a document. -/
def ofViolation (document : Json) (violation : Violation) : Issue where
  keyword := violation.schemaRoute.getLastD ""
  instancePath := violation.instancePointer
  schemaPath := violation.schemaPointer
  message := violation.message
  schema := document.resolve? violation.schemaPointer
  parentSchema := document.resolve? (Pointer.join "" violation.schemaRoute.dropLast)
  data := some violation.data

/-- The issue as a line of text. -/
def line (issue : Issue) : String :=
  (if issue.instancePath = "" then "(root)" else issue.instancePath) ++ ": " ++ issue.message

/-- The issue as a value. -/
def json (issue : Issue) : Json :=
  let given := fun (key : String) (value : Option Json) => (value.map fun v => (key, v)).toList
  .ofMembers <|
    [("keyword", .string issue.keyword), ("instance_path", .string issue.instancePath),
      ("schema_path", .string issue.schemaPath), ("message", .string issue.message)]
    ++ given "params" issue.params ++ given "schema" issue.schema
    ++ given "parent_schema" issue.parentSchema ++ given "data" issue.data

end Issue

end SchemaAlgebra
