import SchemaAlgebra.Fragment.Basic

/-!
# The registry of classes

A compiled schema looks up the classes that its `instanceOf` keywords name.  Three sources fill the
registry, and a name is resolved by the first that knows it:

1. the classes configured in the options, of which a later one replaces an earlier one of its name;
2. the built-in classes;
3. the classes carried by nodes of the schema, in the order of the pointers of the nodes.
-/

namespace SchemaAlgebra

/-- The classes a compiled schema knows. -/
structure Registry where
  /-- The classes under their names. -/
  classes : Table Class := .empty
deriving Inhabited

namespace Registry

/-- Adds a class, unless its name is taken. -/
def fallBackOn (classes : Table Class) (named : String × Class) : Table Class :=
  if classes.contains named.1 then classes else classes.insert named.1 named.2

/-- The classes that the nodes of a schema carry, in pointer order. -/
def carried (schema : Fragment) : List (String × Class) :=
  schema.records.entries.flatMap fun record =>
    (record.2.constructors.map Table.entries).getD []

/-- The registry of a schema compiled with `options`. -/
def build (options : Options) (schema : Fragment) : Registry where
  classes :=
    (carried schema).foldl fallBackOn <|
      Class.builtins.enter (options.classes.map fun cls => (cls.name, cls))

/-- The class called `name`. -/
def get? (registry : Registry) (name : String) : Option Class :=
  registry.classes.lookup name

/-- Whether `name` is known. -/
def contains (registry : Registry) (name : String) : Bool :=
  registry.classes.contains name

/-- The number of classes known. -/
def size (registry : Registry) : Nat :=
  registry.classes.entries.length

/-- Whether no class is known. -/
def isEmpty (registry : Registry) : Bool :=
  registry.classes.isEmpty

/-- Whether a value is an instance of one of the named classes; a name that is not known has no
instances. -/
def isInstanceOfAny (registry : Registry) (names : List String) (value : Json) : Bool :=
  (names.filterMap registry.get?).any fun cls => cls.isInstance value

end Registry

end SchemaAlgebra
