import SchemaAlgebra.Graph
import SchemaAlgebra.Json.Pointer

/-!
# Outlines of schema nodes

Transforms run, and undeclared members are dropped, at the nodes of a schema that a value can reach.
A node is known by its pointer; two pointers that lead to one place by different spellings are two
nodes.

* `Outline` — the nodes that a node leads to, by the role they have for its value.
* `Outline.nodes` — the nodes of a document: the root and all that it leads to, depth first.  They
  lie on ways down from the root or from the target of a reference (`Json.reachable`), so there are
  finitely many, however the references go in circles.
-/

namespace SchemaAlgebra

/-- Which nodes the items of an array go to. -/
inductive ItemRule where
  /-- To none. -/
  | none
  /-- All to one. -/
  | each (node : Pointer)
  /-- To the nodes of a list, one after another. -/
  | listed (nodes : List Pointer)
deriving DecidableEq, Inhabited

/-- The nodes that a node leads to. -/
structure Outline where
  /-- The pointer of the node. -/
  pointer : Pointer
  /-- The nodes of declared members. -/
  properties : List (String × Pointer) := []
  /-- The nodes of members whose keys have a pattern. -/
  patterns : List (String × Pointer) := []
  /-- The node of members that are neither. -/
  additional : Option Pointer := none
  /-- Whether members that are neither are refused. -/
  closed : Bool := false
  /-- The nodes of items. -/
  items : ItemRule := .none
  /-- The node of items beyond a list. -/
  additionalItems : Option Pointer := none
  /-- The nodes that apply to the value itself. -/
  allOf : List Pointer := []
  /-- The nodes of which those that accept the value may apply to it. -/
  branches : List Pointer := []
  /-- The pointer of the condition, if there is one. -/
  condition : Option Pointer := none
  /-- The node for values that satisfy the condition. -/
  consequent : Option Pointer := none
  /-- The node for other values. -/
  alternative : Option Pointer := none
  /-- The node referred to. -/
  reference : Option Pointer := none
deriving DecidableEq, Inhabited

namespace Json

/-! ## Ways through a document -/

mutual

/-- The ways down from a value, as tokens; the first leads nowhere. -/
def paths : Json → List (List String)
  | .array items => [] :: itemPaths 0 items
  | .object members => [] :: memberPaths members
  | _ => [[]]

/-- The ways down through items, the first of which has the place `index`. -/
def itemPaths (index : Nat) : List Json → List (List String)
  | [] => []
  | item :: rest =>
    (item.paths.map fun path => Pointer.indexToken index :: path) ++ itemPaths (index + 1) rest

/-- The ways down through members. -/
def memberPaths : List (String × Json) → List (List String)
  | [] => []
  | (key, value) :: rest => (value.paths.map fun path => key :: path) ++ memberPaths rest

end

/-- The pointer in a reference into the document it stands in. -/
def localTarget? (keywords : Entries Json) : Option Pointer := do
  match ((← Entries.lookup "$ref" keywords).string?).map String.toList with
  | some ('#' :: target) => some (String.ofList target)
  | _ => none

mutual

/-- The pointers that references anywhere in a value lead to. -/
def targets : Json → List Pointer
  | .array items => itemTargets items
  | .object members => (localTarget? members).toList ++ memberTargets members
  | _ => []

/-- The pointers that references in items lead to. -/
def itemTargets : List Json → List Pointer
  | [] => []
  | item :: rest => item.targets ++ itemTargets rest

/-- The pointers that references in members lead to. -/
def memberTargets : List (String × Json) → List Pointer
  | [] => []
  | (_, value) :: rest => value.targets ++ memberTargets rest

end

/-- The pointers of everything at and beneath the root and the targets of references. -/
def reachable (document : Json) : List Pointer :=
  ("" :: document.targets).flatMap fun base =>
    match document.resolve? base with
    | some value => value.paths.map (Pointer.join base)
    | none => []

end Json

namespace Outline

/-! ## Reading -/

/-- The node of a keyword whose argument is a schema. -/
def single? (pointer : Pointer) (keywords : Entries Json) (keyword : String) : Option Pointer :=
  match Entries.lookup keyword keywords with
  | some (.object _) => some (Pointer.join pointer [keyword])
  | _ => none

/-- The nodes of a keyword whose argument is a list. -/
def listed (pointer : Pointer) (keywords : Entries Json) (keyword : String) : List Pointer :=
  match Entries.lookup keyword keywords with
  | some (.array items) =>
    (List.range items.length).map fun index =>
      Pointer.join pointer [keyword, Pointer.indexToken index]
  | _ => []

/-- The nodes of a keyword whose argument is an object, under their names. -/
def named (pointer : Pointer) (keywords : Entries Json) (keyword : String) :
    List (String × Pointer) :=
  match Entries.lookup keyword keywords with
  | some (.object members) =>
    (Entries.keys members).map fun name => (name, Pointer.join pointer [keyword, name])
  | _ => []

/-- Whether the argument of a keyword is a list. -/
def isListed (keywords : Entries Json) (keyword : String) : Bool :=
  (Entries.lookup keyword keywords).any Json.isArray

/-- The nodes of items. -/
def itemRule (pointer : Pointer) (keywords : Entries Json) : ItemRule :=
  if isListed keywords "prefixItems" then .listed (listed pointer keywords "prefixItems")
  else if isListed keywords "items" then .listed (listed pointer keywords "items")
  else
    match single? pointer keywords "items" with
    | some node => .each node
    | none => .none

/-- The node of items beyond a list. -/
def itemsBeyond? (pointer : Pointer) (keywords : Entries Json) : Option Pointer :=
  if isListed keywords "prefixItems" then single? pointer keywords "items"
  else if isListed keywords "items" then single? pointer keywords "additionalItems"
  else none

/-- The outline of a schema with these keywords.  What follows a condition counts only if there is
one, and a reference only if it leads somewhere in the document. -/
def ofKeywords (document : Json) (pointer : Pointer) (keywords : Entries Json) : Outline :=
  let conditional := Entries.contains "if" keywords
  let following := fun keyword =>
    if conditional then single? pointer keywords keyword else none
  { pointer := pointer
    properties := named pointer keywords "properties"
    patterns := named pointer keywords "patternProperties"
    additional := single? pointer keywords "additionalProperties"
    closed := Entries.lookup "additionalProperties" keywords = some (.bool false)
    items := itemRule pointer keywords
    additionalItems := itemsBeyond? pointer keywords
    allOf := listed pointer keywords "allOf"
    branches := listed pointer keywords "anyOf" ++ listed pointer keywords "oneOf"
    condition := if conditional then some (Pointer.join pointer ["if"]) else none
    consequent := following "then"
    alternative := following "else"
    reference := (Json.localTarget? keywords).filter fun target =>
      (document.resolve? target).isSome }

/-- The keywords of the schema at a pointer. -/
def keywordsAt? (document : Json) (pointer : Pointer) : Option (Entries Json) :=
  (document.resolve? pointer).bind Json.members?

/-- The outline of the node at a pointer; where there is no object, it leads nowhere. -/
def read (document : Json) (pointer : Pointer) : Outline :=
  match keywordsAt? document pointer with
  | some keywords => ofKeywords document pointer keywords
  | none => { pointer := pointer }

/-- The nodes that items go to. -/
def itemNodes : ItemRule → List Pointer
  | .none => []
  | .each node => [node]
  | .listed nodes => nodes

/-- All nodes that a node leads to. -/
def children (outline : Outline) : List Pointer :=
  outline.properties.map Prod.snd ++ outline.patterns.map Prod.snd ++ outline.additional.toList
    ++ itemNodes outline.items ++ outline.additionalItems.toList ++ outline.allOf
    ++ outline.branches ++ outline.consequent.toList ++ outline.alternative.toList
    ++ outline.reference.toList

/-- The nodes of a document, each before those it leads to first. -/
def nodes (document : Json) : List Pointer :=
  Graph.depthFirst (fun pointer => (read document pointer).children) document.reachable [""]

/-- The node that the item at a place goes to. -/
def itemNode? (outline : Outline) (index : Nat) : Option Pointer :=
  match outline.items with
  | .none => none
  | .each node => some node
  | .listed nodes => nodes[index]?.or outline.additionalItems

/-- The nodes that apply to the value of a node as they stand. -/
def conjuncts (outline : Outline) : List Pointer :=
  outline.allOf ++ outline.reference.toList

end Outline

end SchemaAlgebra
