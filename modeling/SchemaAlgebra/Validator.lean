import SchemaAlgebra.Plan.Pass
import SchemaAlgebra.Plan.Prune

/-!
# Validators

A schema compiles to a validator (`Validator.compile`).  A validator matches a value against the
document of the schema, and runs the transforms of the schema on it (`Validator.validate`): the
matcher sees the value as it was given, and the outcome holds the value as it is afterwards.

* `Outcome` — the issues found and the value.
* `AssertingValidator` — a validator that answers with the value, and fails if there are issues.
-/

namespace SchemaAlgebra

/-- What a validation leads to. -/
structure Outcome where
  /-- The issues found. -/
  issues : List Issue
  /-- The value after the transforms. -/
  data : Json
deriving DecidableEq, Inhabited

namespace Outcome

/-- Whether no issue was found. -/
def valid (outcome : Outcome) : Bool :=
  outcome.issues.isEmpty

/-- The issues, if there are any. -/
def errors? (outcome : Outcome) : Option (List Issue) :=
  if outcome.valid then none else some outcome.issues

/-- The outcome as a value. -/
def json (outcome : Outcome) : Json :=
  .ofMembers [("valid", .bool outcome.valid),
    ("errors", match outcome.errors? with
      | some issues => .array (issues.map Issue.json)
      | none => .null),
    ("data", outcome.data)]

end Outcome

/-- Why a validation does not come to an outcome. -/
inductive ValidatorError where
  /-- Issues were found by a validator that asserts there are none. -/
  | validationFailed (title : String) (issues : List Issue)
  /-- A transform failed. -/
  | transformFailed (transformation : String) (instancePath : Pointer) (source : TransformError)
  /-- The transforms made so much work for one another that the limit was exceeded. -/
  | unfinished
deriving DecidableEq, Inhabited

namespace ValidatorError

/-- The error in words. -/
def message : ValidatorError → String
  | validationFailed title issues =>
    title ++ ":\n" ++ String.intercalate "\n" (issues.map fun issue => "  " ++ issue.line)
  | transformFailed transformation instancePath source =>
    "transform '" ++ transformation ++ "' failed at '" ++ instancePath ++ "': " ++ source.message
  | unfinished => "the transforms do not come to an end"

/-- The error of a run that stopped. -/
def ofHalt : Halt → ValidatorError
  | .failed transformation instancePath source =>
    .transformFailed transformation instancePath source
  | .exhausted => .unfinished

end ValidatorError

/-- A compiled schema. -/
structure Validator where
  /-- The matcher of the document. -/
  matcher : Matcher
  /-- The transforms of the schema. -/
  plan : Plan
  /-- The settings in effect. -/
  options : MatcherOptions
deriving Inhabited

namespace Validator

/-- Compiles a schema with options that are complete. -/
def compileWith (schema : Fragment) (options : Options) : Except CompileError Validator := do
  let registry := Registry.build options schema
  let extensions ← (Extension.resolve options.keywords).mapError .unknownKeyword
  schema.checkNames options registry
  let build := Matcher.build options.matcher extensions registry
  let matcher ← (build schema.json).mapError .build
  let plan ← Plan.compile build schema options
  return { matcher := matcher, plan := plan, options := options.matcher }

/-- **Compilation.**  The validator of a schema; the given options are laid over those attached to
it. -/
def compile (schema : Fragment) (options : Option Options) : Except CompileError Validator :=
  compileWith schema (Options.merged schema.options? options)

/-- The document of the schema. -/
def document (validator : Validator) : Json :=
  validator.plan.document

/-- The value as the matcher sees it. -/
def prepare (validator : Validator) (value : Json) : Json :=
  if validator.options.prunes then validator.plan.prune value else value

/-- The issues that the matcher finds. -/
def structuralIssues (validator : Validator) (value : Json) : List Issue :=
  (validator.matcher.violations value).map (Issue.ofViolation validator.document)

/-- The issues as the options want them shown: all of them or the first, in full or terse. -/
def report (options : MatcherOptions) (issues : List Issue) : List Issue :=
  (if options.reportsAll then issues else issues.take 1).map
    fun issue => if options.isVerbose then issue else issue.terse

/-- Validation, with a limit on how many visits of the transform pass stand inside one another.  The
issues of the matcher come first, then those of the transforms. -/
def validateWithin (validator : Validator) (limit : Nat) (value : Json) :
    Except ValidatorError Outcome :=
  let prepared := validator.prepare value
  let run := validator.plan.run limit prepared
  match run.outcome with
  | .error halt => .error (.ofHalt halt)
  | .ok data =>
    .ok ⟨report validator.options (validator.structuralIssues prepared ++ run.issues), data⟩

/-- **Validation.**  The limit decides nothing but when to give up: a validation that comes to a result
within some limit comes to it within every greater one. -/
def validate (validator : Validator) (value : Json) : Except ValidatorError Outcome :=
  validator.validateWithin Plan.nestingLimit value

end Validator

/-- A validator that fails on values with issues. -/
structure AssertingValidator where
  /-- The validator. -/
  inner : Validator
  /-- What failures are headed with. -/
  title : String
deriving Inhabited

namespace AssertingValidator

/-- The heading of failures when none is given. -/
def defaultTitle : String := "jsonschema validation failed"

/-- Compiles a schema. -/
def compile (schema : Fragment) (title : Option String) (options : Option Options) :
    Except CompileError AssertingValidator := do
  return { inner := ← Validator.compile schema options, title := title.getD defaultTitle }

/-- The value after the transforms, if there are no issues. -/
def validate (validator : AssertingValidator) (value : Json) : Except ValidatorError Json := do
  let outcome ← validator.inner.validate value
  if outcome.valid then return outcome.data
  else .error (.validationFailed validator.title outcome.issues)

end AssertingValidator

end SchemaAlgebra
