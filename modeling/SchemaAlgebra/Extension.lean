import SchemaAlgebra.Kind
import SchemaAlgebra.Registry

/-!
# Extension keywords

Beside the keywords of the JSON Schema dialects a schema may use keywords of this library.

* `instanceOf` — the value is an instance of one of the named classes.
* `transform` — names the functions that rewrite the value afterwards; it accepts every value.
* `typeof` — the runtime kind of the value is one of the named ones.
* `allRequired`, `anyRequired`, `oneRequired`, `prohibited` — how many of some properties an object
  has.  These are opt-in (`Extension.resolve`), and other values pass them.

`Assertion.read?` reads the argument of such a keyword, and `Assertion.holds` says what it demands.
-/

namespace SchemaAlgebra

/-- How many of the listed properties must be present. -/
inductive Presence where
  | all
  | any
  | one
  | none
deriving DecidableEq, Inhabited

namespace Presence

/-- The keyword that states the rule. -/
def keyword : Presence → String
  | all => "allRequired"
  | any => "anyRequired"
  | one => "oneRequired"
  | none => "prohibited"

/-- Whether the rule admits `present` of `total` listed properties. -/
def admits (rule : Presence) (present total : Nat) : Bool :=
  match rule with
  | all => present == total
  | any => 1 ≤ present
  | one => present == 1
  | none => present == 0

/-- The demand in words, on the properties in `list`. -/
def demand (rule : Presence) (list : String) : String :=
  match rule with
  | all => "should have all properties: " ++ list
  | any => "should have at least one of the properties: " ++ list
  | one => "should have exactly one of the properties: " ++ list
  | none => "should not have any of the properties: " ++ list

end Presence

/-- An extension keyword that options can name. -/
inductive Extension where
  | typeOf
  | presence (rule : Presence)
deriving DecidableEq, Inhabited

namespace Extension

/-- The keyword. -/
def name : Extension → String
  | typeOf => "typeof"
  | presence rule => rule.keyword

/-- All extensions. -/
def all : List Extension :=
  [typeOf, presence .all, presence .any, presence .one, presence .none]

/-- The extension with this keyword. -/
def ofName? (s : String) : Option Extension :=
  all.find? fun extension => extension.name = s

/-- The extensions in effect beside `enabled` when the keywords in `names` are asked for, each once;
on a keyword that is none of theirs, that keyword. -/
def resolveFrom (enabled : List Extension) : List String → Except String (List Extension)
  | [] => .ok enabled
  | name :: names =>
    match ofName? name with
    | none => .error name
    | some extension =>
      resolveFrom (if extension ∈ enabled then enabled else enabled ++ [extension]) names

/-- The extensions in effect when the keywords in `names` are asked for; `typeof` always is. -/
def resolve (names : List String) : Except String (List Extension) :=
  resolveFrom [typeOf] names

end Extension

/-! ## Arguments -/

/-- What is wrong with the argument of an extension keyword. -/
inductive ArgumentFault where
  /-- The argument of `instanceOf` is neither a name nor a list of names. -/
  | classNames
  /-- The argument of `instanceOf` names a class that is not known. -/
  | unknownClass (name : String)
  /-- The argument of `transform` is no list of names. -/
  | transformNames
  /-- The argument of `typeof` is neither a name nor a list of names. -/
  | kindNames
  /-- The argument of `allRequired` is no truth value. -/
  | switch
  /-- The argument of a presence keyword is no list, or an empty one. -/
  | propertyList (rule : Presence)
  /-- The argument of a presence keyword lists something that is no name. -/
  | propertyNames (rule : Presence)
deriving DecidableEq, Inhabited

namespace ArgumentFault

/-- The keyword whose argument is at fault. -/
def keyword : ArgumentFault → String
  | classNames | unknownClass _ => "instanceOf"
  | transformNames => "transform"
  | kindNames => "typeof"
  | switch => "allRequired"
  | propertyList rule | propertyNames rule => rule.keyword

/-- The fault in words. -/
def reason : ArgumentFault → String
  | classNames => "expected a class name or a list of names"
  | unknownClass name => "unknown class " ++ name
  | transformNames => "expected a list of transform names"
  | kindNames => "expected a type name or a list of names"
  | switch => "expected a boolean"
  | propertyList _ => "expected a non-empty list of property names"
  | propertyNames _ => "expected property names"

end ArgumentFault

/-- The names in a list of strings. -/
def namesOfItems? (items : List Json) : Option (List String) :=
  items.mapM Json.string?

/-- A name, or the names in a list of strings. -/
def namesOf? : Json → Option (List String)
  | .string name => some [name]
  | .array items => namesOfItems? items
  | _ => none

/-- What an extension keyword demands of a value. -/
inductive Assertion where
  | instanceOf (names : List String)
  | transform
  | typeOf (names : List String)
  | presence (rule : Presence) (names : List String)
deriving DecidableEq, Inhabited

namespace Assertion

/-- Reads the argument of `instanceOf`. -/
def readInstanceOf (registry : Registry) (argument : Json) : Except ArgumentFault Assertion :=
  match namesOf? argument with
  | none => .error .classNames
  | some names =>
    match names.find? fun name => !registry.contains name with
    | some unknown => .error (.unknownClass unknown)
    | none => .ok (.instanceOf names)

/-- Reads the argument of `transform`. -/
def readTransform : Json → Except ArgumentFault Assertion
  | .array items => if (namesOfItems? items).isSome then .ok .transform else .error .transformNames
  | _ => .error .transformNames

/-- Reads the argument of `typeof`. -/
def readTypeOf (argument : Json) : Except ArgumentFault Assertion :=
  match namesOf? argument with
  | some names => .ok (.typeOf names)
  | none => .error .kindNames

/-- The names that `properties` declares beside the keyword. -/
def declaredNames (siblings : Entries Json) : List String :=
  match Entries.lookup "properties" siblings with
  | some (.object properties) => Entries.keys properties
  | _ => []

/-- Reads the argument of a presence keyword; `allRequired` is a switch for the properties declared
beside it. -/
def readPresence (siblings : Entries Json) (rule : Presence) (argument : Json) :
    Except ArgumentFault Assertion :=
  match rule, argument with
  | .all, .bool enabled => .ok (.presence .all (if enabled then declaredNames siblings else []))
  | .all, _ => .error .switch
  | rule, .array (item :: items) =>
    match namesOfItems? (item :: items) with
    | some names => .ok (.presence rule names)
    | none => .error (.propertyNames rule)
  | rule, _ => .error (.propertyList rule)

/-- What a keyword with this argument demands, `none` if it is no extension in effect. -/
def read? (registry : Registry) (enabled : List Extension) (siblings : Entries Json)
    (keyword : String) (argument : Json) : Option (Except ArgumentFault Assertion) :=
  if keyword = "instanceOf" then some (readInstanceOf registry argument)
  else if keyword = "transform" then some (readTransform argument)
  else
    (enabled.find? fun extension => extension.name = keyword).map fun
      | .typeOf => readTypeOf argument
      | .presence rule => readPresence siblings rule argument

/-- Whether a value meets the demand. -/
def holds (registry : Registry) : Assertion → Json → Bool
  | instanceOf names, value => registry.isInstanceOfAny names value
  | transform, _ => true
  | typeOf names, value => names.contains (Kind.of value).runtimeName
  | presence rule names, .object members =>
    rule.admits (names.countP fun name => Entries.contains name members) names.length
  | presence _ _, _ => true

/-- The demand in words. -/
def demand : Assertion → String
  | instanceOf names =>
    "should pass \"instanceOf\" keyword validation (" ++ String.intercalate " | " names ++ ")"
  | transform => ""
  | typeOf names =>
    "should pass \"typeof\" keyword validation (" ++ String.intercalate " | " names ++ ")"
  | presence rule names => rule.demand (String.intercalate ", " names)

end Assertion

end SchemaAlgebra
