import SchemaAlgebra.Matcher.Assertions
import SchemaAlgebra.Reference

/-!
# Keywords that apply other schemas

Each of these keywords applies schemas to the value, or to its members or items.  How a schema is
applied is a parameter here (`Judge`); the recursion is closed in `Matcher.Evaluate`.

The members of an object are shared among three keywords.  When `additionalProperties` closes the
object, or has a schema for what is left, it answers for all of them, in the order of the members
(`Matcher.additionalProperties`); otherwise `properties` and `patternProperties` answer for
themselves.

Two more keywords limit how many items `contains` may find; it answers for them
(`Matcher.ContainsLimits`).  The `unevaluated…` keywords are left out (see `Matcher.Evaluate`).
-/

namespace SchemaAlgebra

/-- What a schema, met in a scope, finds wrong with a value. -/
abbrev Judge := Scope → Json → Json → List Violation

namespace Matcher

variable (judge : Judge) (scope : Scope)

/-- The violations of a value further in: `route` leads to its schema, `token` to the value. -/
def applyTo (route : List String) (token : String) (schema value : Json) : List Violation :=
  (judge scope schema value).map (Violation.under route [token])

/-- The violations of the value itself against a schema that `route` leads to. -/
def applyHere (route : List String) (schema value : Json) : List Violation :=
  (judge scope schema value).map (Violation.under route [])

/-- Whether a value satisfies a schema. -/
def satisfies (schema value : Json) : Bool :=
  (judge scope schema value).isEmpty

/-! ## Members -/

/-- The schemas in an object under a keyword. -/
def schemasUnder (keyword : String) (keywords : Entries Json) : Entries Json :=
  ((Entries.lookup keyword keywords).bind Json.members?).getD []

/-- Whether `additionalProperties` answers for all members. -/
def answersForMembers (keywords : Entries Json) : Bool :=
  match Entries.lookup "additionalProperties" keywords with
  | some (.bool false) | some (.object _) => true
  | _ => false

/-- The schemas whose patterns occur in a key. -/
def patternsFor (keywords : Entries Json) (key : String) : Entries Json :=
  (schemasUnder "patternProperties" keywords).filter fun entry => patternOccurs entry.1 key

/-- The violations of the declared members of an object. -/
def properties (schemas members : Entries Json) : List Violation :=
  schemas.flatMap fun (name, schema) =>
    match Entries.lookup name members with
    | some value => applyTo judge scope ["properties", name] name schema value
    | none => []

/-- The violations of the members whose keys have patterns. -/
def patternProperties (schemas members : Entries Json) : List Violation :=
  schemas.flatMap fun (source, schema) =>
    members.flatMap fun (key, value) =>
      if patternOccurs source key then
        applyTo judge scope ["patternProperties", source] key schema value
      else []

/-- The violations of a member against the schemas for its key. -/
def coveredMember (keywords : Entries Json) (key : String) (value : Json) : List Violation :=
  (match Entries.lookup key (schemasUnder "properties" keywords) with
    | some schema => applyTo judge scope ["properties", key] key schema value
    | none => [])
    ++ (patternsFor keywords key).flatMap fun (source, schema) =>
      applyTo judge scope ["patternProperties", source] key schema value

/-- Whether `properties` or `patternProperties` provide for a key. -/
def covers (keywords : Entries Json) (key : String) : Bool :=
  Entries.contains key (schemasUnder "properties" keywords)
    || !(patternsFor keywords key).isEmpty

/-- The violations of all members, when `additionalProperties` answers for them. -/
def additionalProperties (keywords : Entries Json) (argument : Json) (members : Entries Json) :
    List Violation :=
  match argument with
  | .bool false =>
    if Entries.contains "properties" keywords || Entries.contains "patternProperties" keywords then
      let unexpected := (Entries.keys members).filter fun key => !covers keywords key
      (members.flatMap fun (key, value) => coveredMember judge scope keywords key value)
        ++ require unexpected.isEmpty "additionalProperties" (.unexpectedProperties unexpected)
          (.object members)
    else
      match members with
      | [] => []
      | (_, first) :: _ => [complain "additionalProperties" .falseSchema first]
  | .object _ =>
    members.flatMap fun (key, value) =>
      if covers keywords key then coveredMember judge scope keywords key value
      else applyTo judge scope ["additionalProperties"] key argument value
  | _ => []

/-- The violations of the keys of an object, as strings.  They are put down to the object. -/
def propertyNames (argument : Json) (members : Entries Json) : List Violation :=
  match argument with
  | .bool false =>
    require members.isEmpty "propertyNames" .falseSchema (.object members)
  | schema =>
    (Entries.keys members).flatMap fun key =>
      (judge scope schema (.string key)).map fun violation =>
        { violation with
          schemaRoute := "propertyNames" :: violation.schemaRoute
          instanceRoute := []
          data := .object members }

/-- The violations of an object against what the presence of its members asks of it. -/
def dependencies (keyword : String) (argument : Json) (members : Entries Json) : List Violation :=
  ((argument.members?).getD []).flatMap fun (name, dependency) =>
    if Entries.contains name members then
      match dependency with
      | .array _ => lacking keyword dependency (.object members)
      | schema => applyHere judge scope [keyword, name] schema (.object members)
    else []

/-! ## Items -/

/-- The violations of items against the schemas at their places. -/
def itemByItem (keyword : String) (schemas items : List Json) : List Violation :=
  (schemas.zip items).zipIdx.flatMap fun ((schema, item), index) =>
    applyTo judge scope [keyword, Pointer.indexToken index] (Pointer.indexToken index) schema item

/-- The violations of the items from the place `first` on, against one schema. -/
def itemsFrom (keyword : String) (first : Nat) (schema : Json) (items : List Json) :
    List Violation :=
  (items.zipIdx.drop first).flatMap fun (item, index) =>
    applyTo judge scope [keyword] (Pointer.indexToken index) schema item

/-- The number of items that `prefixItems` lists schemas for.  They are exempt from one schema for
all items, also in dialects that apply no `prefixItems`. -/
def prefixLength (keywords : Entries Json) : Nat :=
  (((Entries.lookup "prefixItems" keywords).bind Json.items?).getD []).length

/-- The violations of items against the argument of `items`. -/
def items (keywords : Entries Json) (argument : Json) (items : List Json) : List Violation :=
  match argument with
  | .array schemas => itemByItem judge scope "items" schemas items
  | schema => itemsFrom judge scope "items" (prefixLength keywords) schema items

/-- The violations of the items beyond a list of schemas. -/
def additionalItems (keywords : Entries Json) (argument : Json) (items : List Json) :
    List Violation :=
  match Entries.lookup "items" keywords, argument with
  | some (.array schemas), .bool false =>
    let unexpected := items.drop schemas.length
    require unexpected.isEmpty "additionalItems" (.unexpectedItems unexpected) (.array items)
  | some (.array schemas), .object keywords =>
    itemsFrom judge scope "additionalItems" schemas.length (.object keywords) items
  | _, _ => []

/-- How many items of a sort an array is to contain, at least one if nothing is said. -/
structure ContainsLimits where
  /-- The least number, if one is given. -/
  least? : Option Nat
  /-- The greatest number, if one is given. -/
  most? : Option Nat
deriving DecidableEq

namespace ContainsLimits

/-- Whether an array may contain so many. -/
def allows (limits : ContainsLimits) (found : Nat) : Bool :=
  limits.least?.getD 1 ≤ found && limits.most?.all (found ≤ ·)

/-- The route to the keyword that `found` items violate.  A limit that stands alone answers for
`contains`; one of two is found beneath it. -/
def route (limits : ContainsLimits) (found : Nat) : List String :=
  match limits.least?, limits.most? with
  | none, none => ["contains"]
  | some _, none => ["minContains"]
  | none, some _ => ["maxContains"]
  | some _, some most => ["contains", if most < found then "maxContains" else "minContains"]

end ContainsLimits

/-- The limit that a keyword beside `contains` gives.  Older dialects have none. -/
def containsLimit? (draft : Draft) (keywords : Entries Json) (keyword : String) : Option Nat :=
  if draft.since .draft201909 then (Entries.lookup keyword keywords).bind countOf? else none

/-- The limits beside `contains`. -/
def containsLimits (draft : Draft) (keywords : Entries Json) : ContainsLimits :=
  ⟨containsLimit? draft keywords "minContains", containsLimit? draft keywords "maxContains"⟩

/-- The violation of an array that contains too few items of a sort, or too many. -/
def contains (keywords : Entries Json) (argument : Json) (items : List Json) : List Violation :=
  let limits := containsLimits scope.draft keywords
  let found := items.countP (satisfies judge scope argument)
  if limits.allows found then []
  else [{ complain "contains" .nothingContained (.array items) with
    schemaRoute := limits.route found }]

/-! ## Combinations -/

/-- The violations against all of some schemas. -/
def allOf (schemas : List Json) (value : Json) : List Violation :=
  schemas.zipIdx.flatMap fun (schema, index) =>
    applyHere judge scope ["allOf", Pointer.indexToken index] schema value

/-- The violation of a value that satisfies none of some schemas. -/
def anyOf (schemas : List Json) (value : Json) : List Violation :=
  require (schemas.any fun schema => satisfies judge scope schema value) "anyOf"
    (.noneValid "anyOf") value

/-- The violation of a value that does not satisfy exactly one of some schemas. -/
def oneOf (schemas : List Json) (value : Json) : List Violation :=
  match schemas.countP fun schema => satisfies judge scope schema value with
  | 0 => [complain "oneOf" (.noneValid "oneOf") value]
  | 1 => []
  | _ => [complain "oneOf" .severalValid value]

/-- The violation of a value that satisfies a schema that it must not. -/
def negation (schema value : Json) : List Violation :=
  require (!satisfies judge scope schema value) "not" (.forbidden schema) value

/-- The violations against the schema that a condition selects. -/
def conditional (keywords : Entries Json) (condition value : Json) : List Violation :=
  let keyword := if satisfies judge scope condition value then "then" else "else"
  match Entries.lookup keyword keywords with
  | some schema => applyHere judge scope [keyword] schema value
  | none => []

/-! ## Keywords -/

/-- The violations of a keyword that applies other schemas; none of another one. -/
def apply (keywords : Entries Json) (keyword : String) (argument value : Json) : List Violation :=
  let schemas := (argument.items?).getD []
  match keyword, value with
  | "allOf", value => allOf judge scope schemas value
  | "anyOf", value => anyOf judge scope schemas value
  | "oneOf", value => oneOf judge scope schemas value
  | "not", value => negation judge scope argument value
  | "if", value => conditional judge scope keywords argument value
  | "properties", .object members =>
    if answersForMembers keywords then []
    else properties judge scope ((argument.members?).getD []) members
  | "patternProperties", .object members =>
    if answersForMembers keywords then []
    else patternProperties judge scope ((argument.members?).getD []) members
  | "additionalProperties", .object members =>
    additionalProperties judge scope keywords argument members
  | "propertyNames", .object members => propertyNames judge scope argument members
  | "dependencies", .object members => dependencies judge scope keyword argument members
  | "dependentSchemas", .object members => dependencies judge scope keyword argument members
  | "items", .array values => items judge scope keywords argument values
  | "prefixItems", .array values => itemByItem judge scope keyword schemas values
  | "additionalItems", .array values => additionalItems judge scope keywords argument values
  | "contains", .array values => contains judge scope keywords argument values
  | _, _ => []

end Matcher

end SchemaAlgebra
