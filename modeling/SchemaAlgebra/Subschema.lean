import SchemaAlgebra.CompileError

/-!
# Subschemas of a document

The walk over a schema and all schemas inside it, in documents of any dialect.  It enters the
schemas that keywords name, list or take, and leaves data alone: what stands under `enum`, `const`,
`default` or an unknown keyword is no schema.

* `Json.subschemas` — every subschema that is an object, with its pointer, outer ones first.
* `Fragment.checkNames` — the check that every class and transform named anywhere in a schema is
  known, reachable or not.
-/

namespace SchemaAlgebra

namespace Json

/-! ## The walk -/

/-- Keywords whose argument is an object of schemas. -/
def mapKeywords : List String :=
  ["properties", "patternProperties", "definitions", "$defs", "dependencies", "dependentSchemas"]

/-- Keywords whose argument is, or may be, a list of schemas. -/
def listKeywords : List String :=
  ["allOf", "anyOf", "oneOf", "prefixItems", "items"]

/-- Keywords whose argument is, or may be, one schema. -/
def singleKeywords : List String :=
  ["items", "additionalProperties", "additionalItems", "unevaluatedProperties", "unevaluatedItems",
    "not", "if", "then", "else", "contains", "propertyNames"]

/-- The values directly inside a schema that are schemas, with the tokens that lead to them. -/
def inside (keywords : Entries Json) : List (List String × Json) :=
  (mapKeywords.flatMap fun keyword =>
    match Entries.lookup keyword keywords with
    | some (.object schemas) => schemas.map fun (name, schema) => ([keyword, name], schema)
    | _ => [])
  ++ (listKeywords.flatMap fun keyword =>
    match Entries.lookup keyword keywords with
    | some (.array schemas) =>
      schemas.zipIdx.map fun (schema, index) => ([keyword, Pointer.indexToken index], schema)
    | _ => [])
  ++ singleKeywords.flatMap fun keyword =>
    match Entries.lookup keyword keywords with
    | some (.object schema) => [([keyword], .object schema)]
    | _ => []

theorem depth_lt_of_mem_inside {keywords : Entries Json} {entry : List String × Json}
    (h : entry ∈ inside keywords) : entry.2.depth < (Json.object keywords).depth := by
  have hlookup : ∀ {keyword : String} {value : Json},
      Entries.lookup keyword keywords = some value → value.depth < (Json.object keywords).depth :=
    fun h => Nat.lt_succ_of_le (depth_le_of_lookup h)
  simp only [inside, List.mem_append, List.mem_flatMap] at h
  rcases h with (⟨keyword, _, h⟩ | ⟨keyword, _, h⟩) | ⟨keyword, _, h⟩
  · split at h
    · rename_i schemas hfound
      obtain ⟨⟨name, schema⟩, hmem, rfl⟩ := List.mem_map.1 h
      exact Nat.lt_trans (Nat.lt_succ_of_le (depth_le_of_mem_members hmem)) (hlookup hfound)
    · simp at h
  · split at h
    · rename_i schemas hfound
      obtain ⟨⟨schema, index⟩, hmem, rfl⟩ := List.mem_map.1 h
      have hmem : schema ∈ schemas := List.fst_mem_of_mem_zipIdx hmem
      exact Nat.lt_trans (Nat.lt_succ_of_le (depth_le_of_mem_items hmem)) (hlookup hfound)
    · simp at h
  · split at h
    · rename_i schema hfound
      simp only [List.mem_singleton] at h
      subst h
      exact hlookup hfound
    · simp at h

/-- The subschemas of a value that stands at `pointer`, itself included, down to `levels` levels. -/
def subschemasWithin : Nat → Pointer → Json → List (Pointer × Entries Json)
  | levels + 1, pointer, .object keywords =>
    (pointer, keywords) :: (inside keywords).flatMap fun (tokens, value) =>
      subschemasWithin levels (Pointer.join pointer tokens) value
  | _, _, _ => []

/-- The subschemas of a document.  Each level is less deep than the one above, so the depth of the
document leaves none out. -/
def subschemas (document : Json) : List (Pointer × Entries Json) :=
  subschemasWithin document.depth "" document

end Json

namespace Fragment

/-! ## Names -/

/-- Whether a transform is known at a node. -/
def knowsTransform (schema : Fragment) (options : Options) (pointer : Pointer) (name : String) :
    Bool :=
  options.transforms.contains name
    || ((schema.recordAt? pointer).bind Metadata.transforms).any fun table => table.contains name

/-- Checks the classes that a node names. -/
def checkClasses (registry : Registry) (pointer : Pointer) (keywords : Entries Json) :
    Except CompileError Unit :=
  match Entries.lookup "instanceOf" keywords with
  | none => .ok ()
  | some argument =>
    match Assertion.readInstanceOf registry argument with
    | .ok _ => .ok ()
    | .error (.unknownClass name) => .error (.unknownClass name pointer)
    | .error fault => .error (.invalidArgument fault pointer)

/-- Checks the transforms that a node names. -/
def checkTransforms (schema : Fragment) (options : Options) (pointer : Pointer)
    (keywords : Entries Json) : Except CompileError Unit :=
  match Entries.lookup "transform" keywords with
  | none => .ok ()
  | some argument =>
    match argument.items?.bind namesOfItems? with
    | none => .error (.invalidArgument .transformNames pointer)
    | some names =>
      match names.find? fun name => !schema.knowsTransform options pointer name with
      | some unknown => .error (.unknownTransform unknown pointer)
      | none => .ok ()

/-- **The check of names.**  Every class and transform that a subschema names must be known. -/
def checkNames (schema : Fragment) (options : Options) (registry : Registry) :
    Except CompileError Unit :=
  schema.json.subschemas.forM fun (pointer, keywords) => do
    checkClasses registry pointer keywords
    schema.checkTransforms options pointer keywords

end Fragment

end SchemaAlgebra
