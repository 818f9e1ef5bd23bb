import SchemaAlgebra.TransformError
import SchemaAlgebra.Table

/-!
# Transforms

A transform rewrites a value during validation.  It sees where the value stands, may report issues,
which make the validation fail without stopping it, and may fail itself, which does stop it.
-/

namespace SchemaAlgebra

/-- What a transform sees beside the value. -/
structure TransformContext where
  /-- The name the transform is called by. -/
  transformation : String
  /-- Where the value stands in the validated document. -/
  instancePath : String
  /-- The key or index of the value in its container, if it is in one. -/
  key : Option String
  /-- The schema that lists the transform. -/
  parentSchema : Json

/-- A complaint of a transform about a value. -/
structure TransformIssue where
  /-- The name of the transform. -/
  transformation : String
  /-- The complaint in words. -/
  message : String
  /-- Particulars, if the transform gave any. -/
  params : Option Json
deriving DecidableEq

/-- What a call of a transform leads to. -/
structure TransformResult where
  /-- The issues reported, in order. -/
  issues : List TransformIssue := []
  /-- The value that takes the place of the given one, or the failure. -/
  outcome : Except TransformError Json

instance : Inhabited TransformResult := ⟨{ outcome := .ok .null }⟩

/-- A function that rewrites values. -/
abbrev Transform := TransformContext → Json → TransformResult

/-- A transform as a schema names it. -/
inductive TransformRef where
  /-- By a name, resolved when the schema is compiled. -/
  | named (name : String)
  /-- By a function that the schema itself carries under a name. -/
  | inlined (name : String) (run : Transform)

namespace TransformRef

/-- The name written into the schema. -/
def name : TransformRef → String
  | named name => name
  | inlined name _ => name

end TransformRef

namespace TransformContext

/-- The issue reported in this context. -/
def issue (context : TransformContext) (message : String) (params : Option Json) :
    TransformIssue :=
  ⟨context.transformation, message, params⟩

end TransformContext

namespace Transform

/-- The transform that applies a function and reports nothing. -/
def ofFunction (f : Json → Except TransformError Json) : Transform :=
  fun _ value => { outcome := f value }

end Transform

end SchemaAlgebra
