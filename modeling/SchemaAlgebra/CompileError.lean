import SchemaAlgebra.Matcher.Build

/-!
# Failures of compilation

A schema that is well built may still not compile: a name may stand for nothing, an argument may
make no sense, or the structural matcher may refuse the document.
-/

namespace SchemaAlgebra

/-- Why a schema does not compile. -/
inductive CompileError where
  /-- A `transform` keyword names a function that is neither configured nor carried by the node. -/
  | unknownTransform (name : String) (pointer : Pointer)
  /-- An `instanceOf` keyword names a class that is not known. -/
  | unknownClass (name : String) (pointer : Pointer)
  /-- The options name a keyword that is no extension. -/
  | unknownKeyword (name : String)
  /-- The argument of an extension keyword is at fault. -/
  | invalidArgument (fault : ArgumentFault) (pointer : Pointer)
  /-- A `transform` keyword stands where no transform ever runs. -/
  | misplacedTransform (pointer : Pointer)
  /-- The structural matcher refuses a document. -/
  | build (fault : BuildFault)
deriving DecidableEq, Inhabited

namespace CompileError

/-- An argument of a keyword that is not as it must be, in words. -/
def invalid (keyword : String) (pointer : Pointer) (reason : String) : String :=
  "invalid value for \"" ++ keyword ++ "\" at '" ++ pointer ++ "': " ++ reason

/-- The error in words. -/
def message : CompileError → String
  | unknownTransform name pointer =>
    "no such transform function available: " ++ name ++ " (at '" ++ pointer ++ "')"
  | unknownClass name pointer =>
    "invalid \"instanceOf\" keyword value " ++ name ++ " (at '" ++ pointer ++ "')"
  | unknownKeyword name => "unknown extension keyword: " ++ name
  | invalidArgument fault pointer => invalid fault.keyword pointer fault.reason
  | misplacedTransform pointer =>
    invalid "transform" pointer
      "transforms only run under properties, items, allOf, anyOf, oneOf, then, else and $ref"
  | build fault => "schema compilation error: " ++ fault.reason

end CompileError

end SchemaAlgebra
