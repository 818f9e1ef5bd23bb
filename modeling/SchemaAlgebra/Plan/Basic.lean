import SchemaAlgebra.Plan.Outline
import SchemaAlgebra.Subschema

/-!
# Plans

A plan says, for every node of a schema that a value can reach, which transforms run there and how
the value is handed on.

* `Plan.compile` — the plan of a schema.  A transform that is not known, or that stands where the
  plan never leads, is an error.
* A node is *active* if it, or a node it leads to, carries transforms (`Plan.activeNodes`).  The
  others need not be visited, and matchers for branches and conditions are built only where
  something active depends on them.
* `Plan.branchDocument` — a branch or condition as a document of its own, which takes along the
  definitions of the document it is from.
-/

namespace SchemaAlgebra

/-- The functions of a `transform` keyword, under their names. -/
abbrev Chain := List (String × Transform)

/-- A node of a plan. -/
structure PlanNode where
  /-- Where the node leads. -/
  outline : Outline
  /-- The transforms of the node. -/
  chain : Chain := []
  /-- Whether the node, or one that it leads to, carries transforms. -/
  active : Bool := false
  /-- The nodes of members whose keys have a pattern, with the matcher of the pattern. -/
  patterns : List (Matcher × Pointer) := []
  /-- The branches with their matchers; none if no branch is active. -/
  branches : List (Matcher × Pointer) := []
  /-- The matcher of the condition, if something active follows it. -/
  condition : Option Matcher := none
deriving Inhabited

namespace PlanNode

/-- Whether a pattern of the node occurs in a key. -/
def hasPatternFor (node : PlanNode) (key : String) : Bool :=
  node.patterns.any fun pattern => pattern.1.accepts (.string key)

/-- Whether the node declares a key, or has a pattern for it. -/
def covers (node : PlanNode) (key : String) : Bool :=
  (node.outline.properties.any fun property => property.1 = key) || node.hasPatternFor key

/-- The nodes that members go to, in the order they are visited, with the keys of those members. -/
def memberRules (node : PlanNode) : List ((String → Bool) × Pointer) :=
  (node.outline.properties.map fun (name, child) => (fun key => key == name, child))
    ++ (node.patterns.map fun (matcher, child) => (fun key => matcher.accepts (.string key), child))
    ++ node.outline.additional.toList.map fun child => (fun key => !node.covers key, child)

/-- The nodes that the member under a key goes to. -/
def memberNodes (node : PlanNode) (key : String) : List Pointer :=
  (node.memberRules.filter fun rule => rule.1 key).map Prod.snd

end PlanNode

/-- The plan of a schema. -/
structure Plan where
  /-- The document of the schema. -/
  document : Json
  /-- The nodes, the root first. -/
  nodes : List PlanNode
deriving Inhabited

namespace Plan

/-- The node with a pointer. -/
def node? (plan : Plan) (pointer : Pointer) : Option PlanNode :=
  plan.nodes.find? fun node => node.outline.pointer = pointer

/-- The node with a pointer; one that the plan does not have leads nowhere. -/
def node (plan : Plan) (pointer : Pointer) : PlanNode :=
  (plan.node? pointer).getD { outline := { pointer := pointer } }

/-- The node of a pointer is one of the plan, or leads nowhere. -/
theorem node_mem_or_eq (plan : Plan) (pointer : Pointer) :
    plan.node pointer ∈ plan.nodes ∧ (plan.node pointer).outline.pointer = pointer
      ∨ plan.node pointer = { outline := { pointer := pointer } } := by
  rw [node]
  cases hnode : plan.node? pointer with
  | none => exact Or.inr rfl
  | some node => exact Or.inl ⟨List.mem_of_find?_eq_some hnode, by simpa using List.find?_some hnode⟩

theorem pointer_node (plan : Plan) (pointer : Pointer) : (plan.node pointer).outline.pointer = pointer := by
  rcases plan.node_mem_or_eq pointer with ⟨-, hpointer⟩ | hnode
  · exact hpointer
  · rw [hnode]

theorem node?_of_mem {plan : Plan} {node : PlanNode} (hnode : node ∈ plan.nodes) :
    plan.node? node.outline.pointer = some (plan.node node.outline.pointer) := by
  obtain ⟨found, hfound⟩ : ∃ found, plan.node? node.outline.pointer = some found := by
    rw [← Option.isSome_iff_exists, node?, List.find?_isSome]
    exact ⟨node, hnode, by simp⟩
  rw [Plan.node, hfound, Option.getD_some]

/-- What holds of all transforms in a plan holds of those of the node of a pointer. -/
theorem forall_mem_chain {plan : Plan} {P : String × Transform → Prop}
    (h : ∀ node ∈ plan.nodes, ∀ entry ∈ node.chain, P entry) (pointer : Pointer) :
    ∀ entry ∈ (plan.node pointer).chain, P entry := by
  rcases plan.node_mem_or_eq pointer with ⟨hmem, -⟩ | hnode
  · exact h _ hmem
  · rw [hnode]
    exact fun entry hentry => absurd hentry List.not_mem_nil

/-! ## Transforms of a node -/

/-- Keywords whose schema no value is handed on to. -/
def unvisitedSingles : List String :=
  ["not", "if", "contains", "propertyNames", "unevaluatedProperties", "unevaluatedItems"]

/-- Keywords whose schemas, under names, no value is handed on to. -/
def unvisitedMaps : List String :=
  ["dependencies", "dependentSchemas"]

/-- The values under a node that no value is handed on to, with their pointers. -/
def unvisited (pointer : Pointer) (keywords : Entries Json) : List (Pointer × Json) :=
  (unvisitedSingles.filterMap fun keyword =>
    (Entries.lookup keyword keywords).map fun value => (Pointer.join pointer [keyword], value))
  ++ unvisitedMaps.flatMap fun keyword =>
    match Entries.lookup keyword keywords with
    | some (.object members) =>
      members.map fun (name, value) => (Pointer.join pointer [keyword, name], value)
    | _ => []

/-- The first place under a node with a transform that never runs. -/
def misplaced? (pointer : Pointer) (keywords : Entries Json) : Option Pointer :=
  (unvisited pointer keywords).findSome? fun (root, value) =>
    (value.subschemas.find? fun subschema => Entries.contains "transform" subschema.2).map
      fun subschema => root ++ subschema.1

/-- The function that a name stands for at a node: a configured one, else one that the node
carries. -/
def transform? (schema : Fragment) (options : Options) (pointer : Pointer) (name : String) :
    Option Transform :=
  (options.transforms.lookup name).or
    (((schema.recordAt? pointer).bind Metadata.transforms).bind fun table => table.lookup name)

/-- The functions that names stand for at a node. -/
def resolveChain (schema : Fragment) (options : Options) (pointer : Pointer) :
    List Json → Except CompileError Chain
  | [] => .ok []
  | item :: items => do
    let name := (item.string?).getD ""
    match transform? schema options pointer name with
    | none => .error (.unknownTransform name pointer)
    | some transform => return (name, transform) :: (← resolveChain schema options pointer items)

/-- The transforms of the node at a pointer. -/
def chainAt (schema : Fragment) (options : Options) (document : Json) (pointer : Pointer) :
    Except CompileError Chain :=
  match Outline.keywordsAt? document pointer with
  | none => .ok []
  | some keywords =>
    match misplaced? pointer keywords with
    | some place => .error (.misplacedTransform place)
    | none =>
      match Entries.lookup "transform" keywords with
      | some (.array names) => resolveChain schema options pointer names
      | _ => .ok []

/-! ## Activity -/

/-- The nodes from which a node with transforms can be reached. -/
def activeNodes (document : Json) (chains : List (Pointer × Chain)) : List Pointer :=
  Graph.reaching (fun pointer => (Outline.read document pointer).children) (chains.map Prod.fst)
    ((chains.filter fun entry => !entry.2.isEmpty).map Prod.fst)

/-! ## Matchers -/

/-- The keywords of a document that a part of it takes along. -/
def sharedKeywords : List String :=
  ["$schema", "definitions", "$defs"]

/-- Adds a keyword of `source`, unless it is there. -/
def share (source keywords : Entries Json) (keyword : String) : Entries Json :=
  match Entries.lookup keyword source with
  | some value =>
    if Entries.contains keyword keywords then keywords else Entries.insert keyword value keywords
  | none => keywords

/-- The part of a document at a pointer as a document of its own, with the definitions of the whole.
-/
def branchDocument (document : Json) (pointer : Pointer) : Json :=
  match document.resolve? pointer with
  | some (.object keywords) =>
    .object (sharedKeywords.foldl (share ((document.members?).getD [])) keywords)
  | some value => value
  | none => .bool true

/-- The document of the strings in which a pattern occurs. -/
def patternDocument (source : String) : Json :=
  .ofMembers [("type", .string "string"), ("pattern", .string source)]

/-- A way to build the matcher of a document. -/
abbrev MatcherBuilder := Json → Except BuildFault Matcher

/-- Builds the matchers of some documents. -/
def buildAll (build : MatcherBuilder) (documents : List (Json × Pointer)) :
    Except CompileError (List (Matcher × Pointer)) :=
  documents.mapM fun (document, pointer) => do
    return (← (build document).mapError .build, pointer)

/-- The matchers of the patterns of a node. -/
def patternMatchers (build : MatcherBuilder) (outline : Outline) :
    Except CompileError (List (Matcher × Pointer)) :=
  buildAll build (outline.patterns.map fun (source, child) => (patternDocument source, child))

/-- The matchers of the branches of a node, if one of them is active. -/
def branchMatchers (build : MatcherBuilder) (document : Json) (active : List Pointer)
    (outline : Outline) : Except CompileError (List (Matcher × Pointer)) :=
  if outline.branches.any fun branch => branch ∈ active then
    buildAll build (outline.branches.map fun branch => (branchDocument document branch, branch))
  else .ok []

/-- The matcher of the condition of a node, if something active follows it. -/
def conditionMatcher (build : MatcherBuilder) (document : Json) (active : List Pointer)
    (outline : Outline) : Except CompileError (Option Matcher) :=
  match outline.condition with
  | some pointer =>
    if (outline.consequent.toList ++ outline.alternative.toList).any fun node => node ∈ active then
      some <$> (build (branchDocument document pointer)).mapError .build
    else .ok none
  | none => .ok none

/-- The node at a pointer, given the active ones. -/
def assembleNode (build : MatcherBuilder) (document : Json) (active : List Pointer)
    (entry : Pointer × Chain) : Except CompileError PlanNode := do
  let outline := Outline.read document entry.1
  let patterns ← patternMatchers build outline
  let branches ← branchMatchers build document active outline
  let condition ← conditionMatcher build document active outline
  return {
    outline := outline
    chain := entry.2
    active := entry.1 ∈ active
    patterns := patterns
    branches := branches
    condition := condition }

/-- The plan with these chains and active nodes. -/
def assemble (build : MatcherBuilder) (document : Json) (chains : List (Pointer × Chain))
    (active : List Pointer) : Except CompileError Plan := do
  return ⟨document, ← chains.mapM (assembleNode build document active)⟩

/-- The nodes of a document with their transforms. -/
def chains (schema : Fragment) (options : Options) (document : Json) :
    Except CompileError (List (Pointer × Chain)) :=
  (Outline.nodes document).mapM fun pointer => do
    return (pointer, ← chainAt schema options document pointer)

/-- **The plan of a schema.** -/
def compile (build : MatcherBuilder) (schema : Fragment) (options : Options) :
    Except CompileError Plan := do
  let chains ← chains schema options schema.json
  assemble build schema.json chains (activeNodes schema.json chains)

end Plan

end SchemaAlgebra
