import SchemaAlgebra.Matcher.Evaluate

/-!
# Documents that can be matched against

Before values are matched against a document it is checked, and refused with the first fault found:

* the document is a schema of its dialect, at any depth;
* no reference leads outside the document;
* every schema that matching can reach has references that lead to schemas, patterns that can be
  read, and extension keywords with sound arguments (`Matcher.reach`).

A schema that only stands among the definitions is not reached, so the last point does not concern
it until something refers to it.
-/

namespace SchemaAlgebra

/-- Why a document cannot be matched against. -/
inductive BuildFault where
  /-- The document is no schema of its dialect. -/
  | malformed
  /-- A reference leads outside the document. -/
  | outside
  /-- A reference leads to nothing in the document. -/
  | dangling (reference : String)
  /-- A reference leads to something that is no schema. -/
  | notSchema
  /-- A pattern cannot be read. -/
  | badPattern (source : String)
  /-- The argument of an extension keyword is at fault. -/
  | argument (fault : ArgumentFault)
deriving DecidableEq, Inhabited

namespace BuildFault

/-- The fault in words. -/
def reason : BuildFault → String
  | malformed => "the document is not a schema of its dialect"
  | outside => "a reference leads outside the document"
  | dangling reference => "reference " ++ reference ++ " leads nowhere"
  | notSchema => "a reference leads to something that is not a schema"
  | badPattern source => "pattern " ++ source ++ " cannot be read"
  | argument fault => "invalid \"" ++ fault.keyword ++ "\" keyword value: " ++ fault.reason

end BuildFault

namespace Matcher

/-- The fault of patterns of which one cannot be read. -/
def checkPatterns (sources : List String) : Except BuildFault Unit :=
  match sources.find? fun source => (Pattern.parse? source).isNone with
  | some source => .error (.badPattern source)
  | none => .ok ()

/-- The patterns that a keyword uses. -/
def patternsUsed (keywords : Entries Json) (keyword : String) (argument : Json) : List String :=
  match keyword, argument with
  | "pattern", .string source => [source]
  | "patternProperties", .object schemas => Entries.keys schemas
  | "additionalProperties", .bool true => []
  | "additionalProperties", _ => Entries.keys (schemasUnder "patternProperties" keywords)
  | _, _ => []

/-- The schemas that a keyword applies, in the order in which they are checked. -/
def schemasApplied (keywords : Entries Json) (keyword : String) (argument : Json) : List Json :=
  let values := fun (entries : Entries Json) => entries.map Prod.snd
  match keyword, argument with
  | "allOf", .array schemas | "anyOf", .array schemas | "oneOf", .array schemas => schemas
  | "not", schema | "contains", schema | "propertyNames", schema => [schema]
  | "if", schema =>
    let consequence := fun keyword => (Entries.lookup keyword keywords).toList
    if Entries.contains "then" keywords || Entries.contains "else" keywords then
      schema :: consequence "then" ++ consequence "else"
    else []
  | "items", .array schemas | "prefixItems", .array schemas => schemas
  | "items", schema => [schema]
  | "additionalItems", schema =>
    match Entries.lookup "items" keywords with
    | some (.array _) => [schema]
    | _ => []
  | "properties", .object schemas | "patternProperties", .object schemas =>
    if answersForMembers keywords then [] else values schemas
  | "additionalProperties", schema =>
    if answersForMembers keywords then
      values (schemasUnder "patternProperties" keywords)
        ++ values (schemasUnder "properties" keywords) ++ [schema]
    else []
  | "dependencies", .object schemas | "dependentSchemas", .object schemas =>
    (values schemas).filter fun schema => !schema.isArray
  | _, _ => []

/-- The references followed so far, each with the base it is read against. -/
abbrev Followed := List (Uri × String)

/-- Checks a keyword of a node, with `reach` to check the schemas it leads to. -/
def reachKeyword (m : Matcher) (reach : Followed → Scope → Json → Except BuildFault Followed)
    (scope : Scope) (keywords : Entries Json) (followed : Followed) (entry : String × Json) :
    Except BuildFault Followed := do
  let (keyword, argument) := entry
  match Assertion.read? m.registry m.extensions keywords keyword argument with
  | some (.error fault) => .error (.argument fault)
  | some (.ok _) => return followed
  | none =>
    if (scope.draft.shape? keyword).isNone then return followed
    else
      match keyword, argument with
      | "$ref", .string reference =>
        if (scope.base, reference) ∈ followed then return followed
        else
          match m.document.resolve? scope reference with
          | none => .error (.dangling reference)
          | some target =>
            reach ((scope.base, reference) :: followed) target.scope target.value
      | keyword, argument =>
        checkPatterns (patternsUsed keywords keyword argument)
        (schemasApplied keywords keyword argument).foldlM (fun followed => reach followed scope)
          followed

/-- **The check of a schema and all that it reaches.**  References in `followed` have been checked;
the result has those followed on the way too. -/
def reach (m : Matcher) : Nat → Followed → Scope → Json → Except BuildFault Followed
  | 0, followed, _, _ => .ok followed
  | steps + 1, followed, scope, schema =>
    match schema with
    | .bool _ => .ok followed
    | .object keywords =>
      let inner := scope.enter keywords
      (effectiveKeywords inner.draft keywords).foldlM
        (m.reachKeyword (m.reach steps) inner keywords) followed
    | _ => .error .notSchema

/-- Checks the document of a matcher. -/
def check (m : Matcher) (value : Json) : Except BuildFault Unit := do
  if !m.document.scope.draft.isSchema value then .error .malformed
  else if !m.document.isClosed then .error .outside
  else
    let steps := (value.positions + 1) * (value.depth + 2)
    let _ ← m.reach steps [] m.document.scope m.document.root
    return ()

/-- **The matcher of a document.**  Its dialect and the enforcement of formats are set by the
options. -/
def build (options : MatcherOptions) (extensions : List Extension) (registry : Registry)
    (value : Json) : Except BuildFault Matcher := do
  let m : Matcher := {
    document := .ofJson options.effectiveDraft value
    enforcesFormats := options.enforcesFormats
    extensions := extensions
    registry := registry }
  m.check value
  return m

end Matcher

end SchemaAlgebra
