import SchemaAlgebra.Options
import SchemaAlgebra.Pattern.Parser
import SchemaAlgebra.Uri

/-!
# Dialects

A dialect of JSON Schema says which keywords a schema may use and what their arguments look like.

* `Draft.shape?` — the shape that a dialect demands of the argument of a keyword.
* `Draft.isSchema` — whether a value is a schema of the dialect: every keyword in it, at any depth,
  has an argument of its shape.  Other members of a schema are not looked at.

A keyword may have a shape and no more to it: those that matching leaves out are listed in
`Matcher.Evaluate`.
-/

namespace SchemaAlgebra

/-- What the argument of a keyword must look like. -/
inductive Shape where
  /-- Any value. -/
  | anything
  /-- Text. -/
  | text
  /-- Text that is a URI reference. -/
  | uriReference
  /-- Text that is a URI with a scheme. -/
  | uri
  /-- Text with no `#` but, possibly, a last one. -/
  | identifier
  /-- Text that names an anchor, beginning with a letter or, if `underscore`, an underscore. -/
  | anchor (underscore : Bool)
  /-- Text that is a pattern. -/
  | pattern
  /-- A truth value. -/
  | flag
  /-- A number. -/
  | number
  /-- A number greater than zero. -/
  | positive
  /-- A natural number; one with a fraction part of zero will do if `lenient`. -/
  | count (lenient : Bool)
  /-- A list. -/
  | list
  /-- A list of at least one value, no two of them equivalent. -/
  | choices
  /-- A list of names, each once, and, if `nonEmpty`, at least one. -/
  | names (nonEmpty : Bool)
  /-- The name of a type, or a list of at least one, each once. -/
  | types
  /-- A schema. -/
  | schema
  /-- A schema or a truth value. -/
  | schemaOrFlag
  /-- A list of at least one schema. -/
  | schemas
  /-- A schema or a list of at least one. -/
  | schemaOrSchemas
  /-- A schema or a list of names. -/
  | schemaOrNames (nonEmpty : Bool)
  /-- An object of values of a shape. -/
  | map (inner : Shape)
  /-- An object of schemas under patterns. -/
  | patternMap
deriving DecidableEq, Inhabited

/-- The names of the types, in the order in which messages list them. -/
def typeNames : List String :=
  ["array", "boolean", "integer", "null", "number", "object", "string"]

namespace Shape

/-- Whether a name may name an anchor. -/
def isAnchorName (underscore : Bool) (name : String) : Bool :=
  match name.toList with
  | [] => false
  | c :: rest =>
    (c.isAlpha || (underscore && c = '_'))
      && rest.all fun c =>
        c.isAlphanum || c = '-' || c = '.' || c = '_' || (!underscore && c = ':')

/-- Whether a value is a natural number. -/
def isCount (lenient : Bool) : Json → Bool
  | .number (.int value) => 0 ≤ value
  | .number n => lenient && n.isIntegral && (n.toInt?.any fun value => 0 ≤ value)
  | _ => false

/-- Whether the values are names, each listed once. -/
def areNames (nonEmpty : Bool) (items : List Json) : Bool :=
  (items.all fun item => item.string?.isSome) && Json.distinct items
    && (!nonEmpty || !items.isEmpty)

/-- Whether a value is the name of a type. -/
def isTypeName (value : Json) : Bool :=
  value.string?.any fun name => typeNames.contains name

/-- Whether a value has a shape that contains no schema. -/
def fitsPlain : Shape → Json → Bool
  | anything, _ => true
  | text, .string _ => true
  | uriReference, .string s => (Uri.parse? s).isSome
  | uri, .string s => (Uri.parse? s).any Uri.isAbsolute
  | identifier, .string s => !s.toList.dropLast.contains '#'
  | anchor underscore, .string s => isAnchorName underscore s
  | pattern, .string s => (Pattern.parse? s).isSome
  | flag, .bool _ => true
  | number, .number _ => true
  | positive, .number n => n.compareValue (.int 0) == .gt
  | count lenient, value => isCount lenient value
  | list, .array _ => true
  | choices, .array items => !items.isEmpty && Json.distinct items
  | names nonEmpty, .array items => areNames nonEmpty items
  | types, .array items => items.all isTypeName && areNames true items
  | types, value => isTypeName value
  | _, _ => false

end Shape

namespace Draft

/-- Whether the dialect has the keywords introduced with another one. -/
def since (draft first : Draft) : Bool :=
  first.age ≤ draft.age

/-! ## Keywords -/

/-- The shape of a keyword of texts about the schema itself: identity, references, annotations. -/
def annotationShape? (draft : Draft) (keyword : String) : Option Shape :=
  let modern := draft.since draft201909
  let reference := if modern then Shape.text else .uriReference
  match keyword with
  | "title" | "description" | "format" => some .text
  | "$schema" => some (if modern || draft = draft4 then .text else .uri)
  | "id" => if draft = draft4 then some .text else none
  | "$id" => if draft = draft4 then none else some (if modern then .identifier else .uriReference)
  | "$ref" => some (if draft = draft4 then .anything else reference)
  | "$comment" | "contentMediaType" | "contentEncoding" =>
    if draft.since draft7 then some .text else none
  | "readOnly" => if draft.since draft7 then some .flag else none
  | "writeOnly" | "deprecated" => if modern then some .flag else none
  | "examples" => if draft.since draft6 then some .list else none
  | "$anchor" => if modern then some (.anchor (draft = draft202012)) else none
  | "$dynamicAnchor" => if draft = draft202012 then some (.anchor true) else none
  | "$dynamicRef" => if draft = draft202012 then some .text else none
  | "$recursiveRef" => if modern then some .text else none
  | "$recursiveAnchor" =>
    if draft = draft201909 then some .flag
    else if draft = draft202012 then some (.anchor true)
    else none
  | _ => none

/-- The shape of a keyword that tests the value itself. -/
def assertionShape? (draft : Draft) (keyword : String) : Option Shape :=
  let limit := if draft = draft4 then Shape.flag else .number
  match keyword with
  | "type" => some .types
  | "const" => if draft.since draft6 then some .anything else none
  | "enum" => some (if draft.since draft7 then .list else .choices)
  | "multipleOf" => some .positive
  | "maximum" | "minimum" => some .number
  | "exclusiveMaximum" | "exclusiveMinimum" => some limit
  | "maxLength" | "minLength" | "maxItems" | "minItems" | "maxProperties" | "minProperties" =>
    some (.count (draft.since draft6))
  | "maxContains" | "minContains" => if draft.since draft201909 then some (.count true) else none
  | "pattern" => some (if draft.since draft201909 then .text else .pattern)
  | "uniqueItems" => some .flag
  | "required" => some (.names (draft = draft4))
  | "dependentRequired" =>
    if draft.since draft201909 then some (.map (.names false)) else none
  | _ => none

/-- The shape of a keyword whose argument contains schemas. -/
def applicatorShape? (draft : Draft) (keyword : String) : Option Shape :=
  let additional := if draft = draft4 then Shape.schemaOrFlag else .schema
  match keyword with
  | "allOf" | "anyOf" | "oneOf" => some .schemas
  | "not" => some .schema
  | "items" => some (if draft = draft202012 then .schema else .schemaOrSchemas)
  | "prefixItems" => if draft = draft202012 then some .schemas else none
  | "additionalItems" => if draft = draft202012 then none else some additional
  | "additionalProperties" => some additional
  | "definitions" | "properties" => some (.map .schema)
  | "patternProperties" => some (if draft.since draft7 then .patternMap else .map .schema)
  | "dependencies" => some (.map (.schemaOrNames (draft = draft4)))
  | "contains" | "propertyNames" => if draft.since draft6 then some .schema else none
  | "if" | "then" | "else" => if draft.since draft7 then some .schema else none
  | "$defs" | "dependentSchemas" => if draft.since draft201909 then some (.map .schema) else none
  | "unevaluatedItems" | "unevaluatedProperties" | "contentSchema" =>
    if draft.since draft201909 then some .schema else none
  | _ => none

/-- The shape that a dialect demands of the argument of a keyword; `none` if it is none of its
keywords. -/
def shape? (draft : Draft) (keyword : String) : Option Shape :=
  (draft.annotationShape? keyword).or
    ((draft.assertionShape? keyword).or (draft.applicatorShape? keyword))

/-! ## Schemas -/

/-- Whether keywords that go together do so: in the oldest dialect a limit can only be made
exclusive if it is there. -/
def fitsSiblings (draft : Draft) (keywords : Entries Json) : Bool :=
  draft ≠ draft4 ||
    ((!Entries.contains "exclusiveMaximum" keywords || Entries.contains "maximum" keywords)
      && (!Entries.contains "exclusiveMinimum" keywords || Entries.contains "minimum" keywords))

mutual

/-- Whether a value has a shape, and every schema in it is one of the dialect. -/
def fits (draft : Draft) : Shape → Json → Bool
  | .schema, .object keywords => draft.fitsSiblings keywords && draft.fitKeywords keywords
  | .schema, .bool _ => draft ≠ draft4
  | .schemaOrFlag, .object keywords => draft.fitsSiblings keywords && draft.fitKeywords keywords
  | .schemaOrFlag, .bool _ => true
  | .schemas, .array items => !items.isEmpty && draft.fitItems items
  | .schemaOrSchemas, .object keywords => draft.fitsSiblings keywords && draft.fitKeywords keywords
  | .schemaOrSchemas, .bool _ => draft ≠ draft4
  | .schemaOrSchemas, .array items => !items.isEmpty && draft.fitItems items
  | .schemaOrNames _, .object keywords => draft.fitsSiblings keywords && draft.fitKeywords keywords
  | .schemaOrNames _, .bool _ => draft ≠ draft4
  | .schemaOrNames nonEmpty, .array items => Shape.areNames nonEmpty items
  | .map inner, .object members => draft.fitMembers inner members
  | .patternMap, .object members =>
    (members.all fun member => draft.since draft201909 || (Pattern.parse? member.1).isSome)
      && draft.fitMembers .schema members
  | shape, value => shape.fitsPlain value

/-- Whether the arguments of all keywords have their shapes. -/
def fitKeywords (draft : Draft) : List (String × Json) → Bool
  | [] => true
  | (keyword, argument) :: rest =>
    (match draft.shape? keyword with
      | some shape => draft.fits shape argument
      | none => true)
      && draft.fitKeywords rest

/-- Whether all items are schemas. -/
def fitItems (draft : Draft) : List Json → Bool
  | [] => true
  | item :: rest => draft.fits .schema item && draft.fitItems rest

/-- Whether all members have a shape. -/
def fitMembers (draft : Draft) (shape : Shape) : List (String × Json) → Bool
  | [] => true
  | (_, value) :: rest => draft.fits shape value && draft.fitMembers shape rest

end

/-- Whether a value is a schema of the dialect. -/
def isSchema (draft : Draft) (value : Json) : Bool :=
  draft.fits .schema value

end Draft

end SchemaAlgebra
