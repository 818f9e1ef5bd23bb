import SchemaAlgebra.Dialect
import SchemaAlgebra.Json.Pointer

/-!
# References between schemas

A `$ref` names a schema by a URI reference, which is read relative to the base URI in force where it
stands.  A schema may set that base, by its identifier, and then becomes a resource of its own;
everything outside the document is out of reach.

* `Scope` — what is in force at a place of a document: the dialect and the base URI.
* `Location` — a value at its place in a document; `Site` — a schema with keywords at its place.
* `Document` — a document with the sites of all its schemas.
* `Document.resolve?` — the place that a reference names.  After the `#` of a reference comes a
  pointer from the resource, or the name of an anchor in it.
-/

namespace SchemaAlgebra

/-- What is in force at a place of a document. -/
structure Scope where
  /-- The dialect. -/
  draft : Draft
  /-- The URI of the resource the place belongs to. -/
  base : Uri
deriving DecidableEq, Inhabited

namespace Draft

/-- The dialect that the keyword `$schema` announces. -/
def announced? (uri : String) : Option Draft :=
  match (if uri.endsWith "#" then (uri.dropEnd 1).toString else uri) with
  | "http://json-schema.org/draft-04/schema" => some draft4
  | "http://json-schema.org/draft-06/schema" => some draft6
  | "http://json-schema.org/draft-07/schema" => some draft7
  | "https://json-schema.org/draft/2019-09/schema" => some draft201909
  | "https://json-schema.org/draft/2020-12/schema" => some draft202012
  | _ => none

/-- Whether a reference makes the other keywords of its schema void. -/
def refersAlone (draft : Draft) : Bool :=
  !draft.since draft201909

/-- The text of the reference that a schema makes. -/
def reference? (keywords : Entries Json) : Option String :=
  (Entries.lookup "$ref" keywords).bind Json.string?

/-- The identifier that a schema gives itself. -/
def identifier? (draft : Draft) (keywords : Entries Json) : Option String :=
  if draft.refersAlone && (reference? keywords).isSome then none
  else (Entries.lookup (if draft = draft4 then "id" else "$id") keywords).bind Json.string?

/-- The anchors that a schema gives itself; in older dialects an identifier that is only a fragment
is an anchor. -/
def anchors (draft : Draft) (keywords : Entries Json) : List String :=
  if draft.refersAlone then
    match (draft.identifier? keywords).map String.toList with
    | some ('#' :: name) => [String.ofList name]
    | _ => []
  else
    (["$anchor", "$dynamicAnchor"].filterMap fun keyword => Entries.lookup keyword keywords)
      |>.filterMap Json.string?

end Draft

namespace Scope

/-- The scope inside a schema, from the one around it. -/
def enter (scope : Scope) (keywords : Entries Json) : Scope :=
  let draft :=
    (((Entries.lookup "$schema" keywords).bind Json.string?).bind Draft.announced?).getD scope.draft
  let base :=
    match draft.identifier? keywords with
    | some identifier =>
      if identifier.startsWith "#" then scope.base
      else ((Uri.parse? identifier).map fun id => (scope.base.resolve id).withoutFragment).getD
        scope.base
    | none => scope.base
  ⟨draft, base⟩

end Scope

/-- A value at its place in a document. -/
structure Location where
  /-- The scope around the value. -/
  scope : Scope
  /-- The way to the value from the root of the document. -/
  path : List String
  /-- The value. -/
  value : Json
deriving DecidableEq, Inhabited

namespace Location

/-- The scope inside the value: an object counts as a schema. -/
def inner (location : Location) : Scope :=
  match location.value with
  | .object keywords => location.scope.enter keywords
  | _ => location.scope

/-- One step down.  The way to an item has its index in the only form that a pointer writes it in. -/
def step? (location : Location) (token : String) : Option Location :=
  match location.value with
  | .object members =>
    (Entries.lookup token members).map fun value => ⟨location.inner, location.path ++ [token], value⟩
  | .array items => do
    let index ← Pointer.lenientIndex? token
    return ⟨location.inner, location.path ++ [Pointer.indexToken index], ← items[index]?⟩
  | _ => none

end Location

/-- A schema with keywords, at its place in a document. -/
structure Site where
  /-- The scope around the schema. -/
  outer : Scope
  /-- The way to the schema from the root of the document. -/
  path : List String
  /-- The keywords of the schema. -/
  keywords : Entries Json
deriving DecidableEq, Inhabited

namespace Site

/-- The place of the schema. -/
def location (site : Site) : Location :=
  ⟨site.outer, site.path, .object site.keywords⟩

/-- The scope inside the schema. -/
def inner (site : Site) : Scope :=
  site.outer.enter site.keywords

mutual

/-- The schemas in an argument of a shape, to which `path` leads, outer ones first. -/
def ofArgument (scope : Scope) (path : List String) : Shape → Json → List Site
  | .schema, .object keywords =>
    ⟨scope, path, keywords⟩ :: ofKeywords (scope.enter keywords) path keywords
  | .schemaOrFlag, .object keywords =>
    ⟨scope, path, keywords⟩ :: ofKeywords (scope.enter keywords) path keywords
  | .schemaOrSchemas, .object keywords =>
    ⟨scope, path, keywords⟩ :: ofKeywords (scope.enter keywords) path keywords
  | .schemaOrNames _, .object keywords =>
    ⟨scope, path, keywords⟩ :: ofKeywords (scope.enter keywords) path keywords
  | .schemas, .array items => ofItems scope path 0 items
  | .schemaOrSchemas, .array items => ofItems scope path 0 items
  | .map inner, .object members => ofMembers scope path inner members
  | .patternMap, .object members => ofMembers scope path .schema members
  | _, _ => []

/-- The schemas in the arguments of keywords. -/
def ofKeywords (scope : Scope) (path : List String) : List (String × Json) → List Site
  | [] => []
  | (keyword, argument) :: rest =>
    (match scope.draft.shape? keyword with
      | some shape => ofArgument scope (path ++ [keyword]) shape argument
      | none => [])
      ++ ofKeywords scope path rest

/-- The schemas in items that are schemas, the first of which has the place `index`. -/
def ofItems (scope : Scope) (path : List String) (index : Nat) : List Json → List Site
  | [] => []
  | item :: rest =>
    ofArgument scope (path ++ [Pointer.indexToken index]) .schema item
      ++ ofItems scope path (index + 1) rest

/-- The schemas in members of a shape. -/
def ofMembers (scope : Scope) (path : List String) (shape : Shape) :
    List (String × Json) → List Site
  | [] => []
  | (key, value) :: rest =>
    ofArgument scope (path ++ [key]) shape value ++ ofMembers scope path shape rest

end

end Site

/-- A document to be matched against, with all its schemas. -/
structure Document where
  /-- The document. -/
  root : Json
  /-- The scope around the document. -/
  scope : Scope
  /-- The schemas in the document, itself included. -/
  sites : List Site
deriving DecidableEq, Inhabited

namespace Document

/-- The base URI of a document that gives itself none. -/
def defaultBase : Uri :=
  { scheme := some "json-schema".toList, authority := some [], path := ['/'] }

/-- A document in a dialect.  The dialect is given, so the document does not announce one. -/
def ofJson (draft : Draft) (value : Json) : Document :=
  let scope : Scope := ⟨draft, defaultBase⟩
  let root := match value with
    | .object keywords => .object (Entries.erase "$schema" keywords)
    | value => value
  ⟨root, scope, Site.ofArgument scope [] .schema root⟩

/-- The place of the document itself. -/
def rootLocation (document : Document) : Location :=
  ⟨document.scope, [], document.root⟩

/-- The scope inside the document. -/
def rootScope (document : Document) : Scope :=
  document.rootLocation.inner

/-- The place of the resource with a URI. -/
def resource? (document : Document) (uri : Uri) : Option Location :=
  if uri = document.scope.base || uri = document.rootScope.base then some document.rootLocation
  else
    (document.sites.find? fun site =>
      (site.inner.draft.identifier? site.keywords).isSome && site.inner.base = uri).map Site.location

/-- The place of the schema with an anchor in the resource with a URI. -/
def anchored? (document : Document) (uri : Uri) (name : String) : Option Location :=
  (document.sites.find? fun site =>
    (site.inner.base = uri
      || (uri = document.scope.base && site.inner.base = document.rootScope.base))
      && (site.inner.draft.anchors site.keywords).contains name).map Site.location

/-- The place that a reference names from within a scope. -/
def resolve? (document : Document) (scope : Scope) (reference : String) : Option Location := do
  let target := scope.base.resolve (← Uri.parse? reference)
  let uri := target.withoutFragment
  match target.fragment with
  | none | some [] => document.resource? uri
  | some ('/' :: pointer) =>
    let location ← document.resource? uri
    let text ← Uri.decodePercent ('/' :: pointer)
    (← Pointer.tokens? text).foldlM Location.step? location
  | some name => document.anchored? uri (← Uri.decodePercent name)

/-- Whether every reference of the document stays within it. -/
def isClosed (document : Document) : Bool :=
  document.sites.all fun site =>
    match Draft.reference? site.keywords with
    | some reference =>
      match Uri.parse? reference with
      | some uri => (document.resource? (site.inner.base.resolve uri).withoutFragment).isSome
      | none => false
    | none => true

end Document

end SchemaAlgebra
