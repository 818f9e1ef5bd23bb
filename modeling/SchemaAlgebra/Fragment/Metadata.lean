import SchemaAlgebra.Options

/-!
# Metadata of schema nodes

A node of a schema may carry data that is no part of the document: functions and classes under their
names, a mark, a descriptor.  A record has a slot for each.
-/

namespace SchemaAlgebra

/-- Tells that a union is discriminated by a property. -/
structure UnionTag where
  /-- The name of the discriminating property. -/
  property : String
  /-- The schema of that property, before the value of each member is fixed in it. -/
  description : Json
deriving DecidableEq, Inhabited

/-- The metadata of one node. -/
structure Metadata where
  /-- Marks a discriminated union. -/
  taggedUnion : Option UnionTag := none
  /-- Whether a property may be missing. -/
  optionalMark : Option Bool := none
  /-- Classes for the `instanceOf` keyword. -/
  constructors : Option (Table Class) := none
  /-- Functions for the `transform` keyword. -/
  transforms : Option (Table Transform) := none
  /-- Options for compiling the schema. -/
  validatorOptions : Option Options := none
deriving Inhabited

namespace Metadata

/-- Whether no slot is filled. -/
def isEmpty (m : Metadata) : Bool :=
  m.taggedUnion.isNone && m.optionalMark.isNone && m.constructors.isNone && m.transforms.isNone
    && m.validatorOptions.isNone

end Metadata

end SchemaAlgebra
