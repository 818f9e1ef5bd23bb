import SchemaAlgebra.Combinator.Primitive
import SchemaAlgebra.Json.Combine

/-!
# Schemas of objects

Objects with declared properties, open or closed to others, maps from any keys, and two operations
that rework the properties of a schema.

**Required properties.**  A property is required unless its schema carries the mark of an optional
one.  An empty `required` is not written, so that equal schemas have equal documents; only
`removeProperty` leaves one, so that its result can be narrowed again.
-/

namespace SchemaAlgebra.Fragment

/-- Whether a schema is one of objects with declared properties. -/
def isObject (f : Fragment) : Bool :=
  f.get? "type" = some (.string "object") &&
    match f.get? "properties" with
    | some properties => !properties.isNull
    | none => false

/-- Sets the required properties, or removes the keyword if there are none. -/
def withRequired (f : Fragment) (required : List Json) : Fragment :=
  match (Json.array required).nonEmpty? with
  | some required => f.withKeyword "required" required
  | none => f.withoutKeyword "required"

/-- The `required` keyword as a sequence. -/
def requiredSeq (f : Fragment) : List Json :=
  ((f.get? "required").getD .null).seq

/-- Objects with these properties, none of them required. -/
def objectOf (properties : List (String × Fragment)) : Fragment :=
  (ofType (.name "object")).withChildren "properties" properties

/-- Objects with these properties, and any others. -/
def openObject (properties : List (String × Fragment)) : Fragment :=
  let required := properties.filter fun property => property.2.optionalMark? ≠ some true
  (objectOf properties).withRequired
    (Json.dedupe (required.map fun property => .string property.1))

/-- Objects with these properties and no others. -/
def closedObject (properties : List (String × Fragment)) : Fragment :=
  (openObject properties).withKeyword "additionalProperties" (.bool false)

/-- Objects with any keys, whose values match `values` if that is given. -/
def mapObject (values : Option Fragment) : Fragment :=
  match values with
  | some values => (openObject []).withChild ["additionalProperties"] values
  | none => (openObject []).withKeyword "additionalProperties" (.bool true)

/-- Marks the schema of a property that may be missing. -/
def optional (f : Fragment) : Fragment :=
  f.modifyRoot fun m => { m with optionalMark := some true }

/-- Replaces the fragment listed under a name, or adds it at the end. -/
def putNamed (name : String) (child : Fragment) :
    List (String × Fragment) → List (String × Fragment)
  | [] => [(name, child)]
  | (other, f) :: rest =>
    if other = name then (other, child) :: rest else (other, f) :: putNamed name child rest

/-- The properties of schemas, those of later ones replacing those of earlier ones. -/
def gatherProperties (sources : List Fragment) : List (String × Fragment) :=
  (sources.flatMap fun source => source.children "properties").foldl
    (fun gathered child => putNamed child.1 child.2 gathered) []

/-- The schema `child` with what it inherits from `bases`.  A property is the child's if it declares
it, or else that of the last base to declare it; required are the properties that are required by
any of them, the child's first, then from the last base to the first. -/
def extending (child : Fragment) (bases : List Fragment) : Fragment :=
  let required := (child :: bases.reverse).map fun f => (f.get? "required").getD .null
  ((merged [child]).withChildren "properties" (gatherProperties (bases ++ [child]))).withRequired
    (Json.dedupe (Json.concat required))

/-- Whether a value is one of these strings. -/
def isNameIn (names : List String) : Json → Bool
  | .string name => names.contains name
  | _ => false

/-- Removes properties, declared and required.  The schema must say which ones are required. -/
def removeProperty (f : Fragment) (names : List String) : Except SchemaError Fragment :=
  match f.get? "required" with
  | none | some .null => .error (.missingRequired "remove_property")
  | some required =>
    let kept := required.seq.filter fun name => !isNameIn names name
    let properties := (f.children "properties").filter fun child => !names.contains child.1
    .ok <|
      ((merged [f]).withChildren "properties" properties).withKeyword "required" (.array kept)

end SchemaAlgebra.Fragment
