import SchemaAlgebra.Combinator.Primitive

/-!
# Schemas of arrays

Lists, whose items all match one schema, and tuples, whose items match one schema each by position.
-/

namespace SchemaAlgebra.Fragment

/-- Arrays whose items all match `item`. -/
def listOf (item : TypeArg) : Fragment :=
  (ofType (.name "array")).withChild ["items"] (ofType item)

/-- Arrays whose first items match `items` one by one; what follows them is free. -/
def openTupleOf (items : List TypeArg) : Fragment :=
  let base := ofType (.name "array")
  let base := if items.isEmpty then base else base.withMembers "items" (items.map ofType)
  base.withKeyword "minItems" (.int items.length)

/-- Arrays whose items match `items` one by one, with nothing after them. -/
def closedTupleOf (items : List TypeArg) : Fragment :=
  (openTupleOf items)
    |>.withKeyword "additionalItems" (.bool false)
    |>.withKeyword "maxItems" (.int items.length)

end SchemaAlgebra.Fragment
