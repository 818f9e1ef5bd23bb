import SchemaAlgebra.Matcher.Applicators

/-!
# Matching values against schemas

`Matcher.violations` matches a value against a document, and lists what is wrong with it: node by
node, the keywords of a node in key order.  A value is accepted when nothing is.

The keyword `$ref` leads elsewhere in the document, possibly back to where it came from, so matching
recurs with a budget of steps.  A way down a value passes no schema of the document twice at one
value unless it goes in a circle, hence the budget of `Matcher.budget`.

## Keywords left out

Matching finds nothing wrong by some keywords that the dialects have, whatever their arguments:

* the dynamic references `$dynamicRef` and `$recursiveRef`;
* `unevaluatedProperties` and `unevaluatedItems`;
* `contentEncoding`, `contentMediaType` and `contentSchema`;
* `format`, for formats other than those of `Format.accepts`.

References stay within the document (`Document.isClosed`), so they do not lead to the schemas of the
dialects themselves either.
-/

namespace SchemaAlgebra

/-- A document to match values against, with what its keywords refer to. -/
structure Matcher where
  /-- The document. -/
  document : Document
  /-- Whether the `format` keyword is enforced. -/
  enforcesFormats : Bool := false
  /-- The extension keywords in effect. -/
  extensions : List Extension := []
  /-- The classes known. -/
  registry : Registry := {}
deriving Inhabited

namespace Matcher

/-- The violations of a value against the schema that a reference names.  A reference to a schema
that makes the very same reference asks for nothing. -/
def followReference (m : Matcher) (judge : Judge) (scope : Scope) (reference : String)
    (value : Json) : List Violation :=
  match m.document.resolve? scope reference with
  | none => []
  | some target =>
    if (target.value.members?.bind Draft.reference?) = some reference then []
    else applyHere judge target.scope ["$ref"] target.value value

/-- The violations of a value against one keyword of a node. -/
def keywordViolations (m : Matcher) (judge : Judge) (scope : Scope) (keywords : Entries Json)
    (keyword : String) (argument value : Json) : List Violation :=
  match Assertion.read? m.registry m.extensions keywords keyword argument with
  | some (.ok assertion) =>
    require (assertion.holds m.registry value) keyword (.unmet assertion) value
  | some (.error _) => []
  | none =>
    if (scope.draft.shape? keyword).isNone then []
    else
      match keyword, argument with
      | "$ref", .string reference => m.followReference judge scope reference value
      | keyword, argument =>
        assert m.enforcesFormats scope.draft keywords keyword argument value
          ++ apply judge scope keywords keyword argument value

/-- The keywords of a node that are looked at: in older dialects, if there is a reference, only
that. -/
def effectiveKeywords (draft : Draft) (keywords : Entries Json) : Entries Json :=
  if draft.refersAlone && (Draft.reference? keywords).isSome then
    keywords.filter fun keyword => keyword.1 = "$ref"
  else keywords

/-- The violations of a value against a node with these keywords. -/
def nodeViolations (m : Matcher) (judge : Judge) (scope : Scope) (keywords : Entries Json)
    (value : Json) : List Violation :=
  (effectiveKeywords scope.draft keywords).flatMap fun (keyword, argument) =>
    m.keywordViolations judge scope keywords keyword argument value

/-- The violations of a value against a schema, within a budget of steps. -/
def judge (m : Matcher) : Nat → Judge
  | 0, _, _, _ => []
  | steps + 1, scope, schema, value =>
    match schema with
    | .bool false => [{ complaint := .falseSchema, subject := value, data := value }]
    | .object keywords =>
      m.nodeViolations (m.judge steps) (scope.enter keywords) keywords value
    | _ => []

/-- The steps that matching a value takes at most, circles apart. -/
def budget (m : Matcher) (value : Json) : Nat :=
  (m.document.root.positions + 1) * (value.depth + 2)

/-- The violations of a value against a schema of the document. -/
def violationsOf (m : Matcher) (scope : Scope) (schema value : Json) : List Violation :=
  m.judge (m.budget value) scope schema value

/-- **What is wrong with a value.**  The violations of a value against the document. -/
def violations (m : Matcher) (value : Json) : List Violation :=
  m.violationsOf m.document.scope m.document.root value

/-- Whether nothing is wrong with a value. -/
def accepts (m : Matcher) (value : Json) : Bool :=
  (m.violations value).isEmpty

end Matcher

end SchemaAlgebra
