import SchemaAlgebra.Combinator.Object
import SchemaAlgebra.Combinator.Union

/-!
# Schemas with classes and transforms

The keyword `instanceOf` asks a class whether a value is its instance, and the keyword `transform`
names functions that rewrite the value.  A class or function that is given itself, and not by name,
is kept in the metadata of the schema.
-/

namespace SchemaAlgebra.Fragment

/-- Objects that are instances of a class. -/
def instanceOf (cls : ClassRef) : Except SchemaError Fragment :=
  if cls.name.isEmpty then .error (.unnamedFunction "instance_of" .cls)
  else
    let fragment := (openObject []).withKeyword "instanceOf" (.string cls.name)
    match cls with
    | .named _ => .ok fragment
    | .carried cls =>
      .ok (fragment.modifyRoot fun m => { m with constructors := some (Class.table [cls]) })

/-- Whether a reference carries a function without a name. -/
def isUnnamed : TransformRef → Bool
  | .named _ => false
  | .inlined name _ => name.isEmpty

/-- Sets the transforms of a schema.  Functions that are carried join those it has already. -/
def withTransforms (f : Fragment) (references : List TransformRef) :
    Except SchemaError Fragment :=
  if references.any isUnnamed then .error (.unnamedFunction "transform" .transform)
  else
    let carried := references.filterMap fun
      | .named _ => none
      | .inlined name run => some (name, run)
    let out := f.withKeyword "transform" (stringArray (references.map TransformRef.name))
    if carried.isEmpty then .ok out
    else
      let table := (out.transforms?.getD .empty).enter carried
      .ok (out.modifyRoot fun m => { m with transforms := some table })

/-- The function that builds an instance of a class: the given one, or the constructor of the class
itself or of the built-in class of its name. -/
def constructorOf (cls : ClassRef) (given : Option (Json → Except TransformError Json)) :
    Except SchemaError (Json → Except TransformError Json) :=
  match given, cls with
  | some construct, _ => .ok construct
  | none, .carried cls => .ok cls.construct
  | none, .named name =>
    match Class.builtins.lookup name with
    | some cls => .ok cls.construct
    | none => .error (.unresolvedClass name)

/-- Constructs an instance from a value of the kind `serialized`, and leaves any other value. -/
def deserialize (construct : Json → Except TransformError Json) (serialized : Kind) : Transform :=
  .ofFunction fun value => if Kind.of value = serialized then construct value else .ok value

/-- Instances of a class, or values of the kind `serialized`, from which validation constructs
instances. -/
def serializedInstanceOf (cls : ClassRef)
    (construct : Option (Json → Except TransformError Json)) (serialized : Kind) :
    Except SchemaError Fragment := do
  let live ← instanceOf cls
  let construct ← constructorOf cls construct
  let form ← (ofKind serialized).withTransforms
    [.inlined cls.name (deserialize construct serialized)]
  return anyOf [live, form]

end SchemaAlgebra.Fragment
