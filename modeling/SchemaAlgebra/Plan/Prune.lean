import SchemaAlgebra.Plan.Basic

/-!
# Pruning

Pruning drops the members of a value that a closed node has no room for.  To each position belong
the nodes whose schemas apply there whatever the value is: those that a position is entered with,
and what they lead to by `allOf` and references.  A member stays if every closed one of them
declares it or has a pattern for it.  Branches and conditions do not prune, as none of them has been
picked.
-/

namespace SchemaAlgebra

namespace Plan

/-- The nodes that apply wherever the given ones do. -/
def conjunction (plan : Plan) (nodes : List Pointer) : List PlanNode :=
  (Graph.depthFirst (fun pointer => (plan.node pointer).outline.conjuncts)
    (plan.nodes.map fun node => node.outline.pointer) nodes).map plan.node

/-- Whether all of some nodes have room for a member. -/
def allow (nodes : List PlanNode) (key : String) : Bool :=
  nodes.all fun node => !node.outline.closed || node.covers key

mutual

/-- The value without the members that the nodes at its position have no room for. -/
def pruneAt (plan : Plan) (entered : List Pointer) : Json → Json
  | .object members => .object (plan.pruneMembers (plan.conjunction entered) members)
  | .array items => .array (plan.pruneItems (plan.conjunction entered) 0 items)
  | value => value

/-- The members that some nodes have room for, each pruned in turn. -/
def pruneMembers (plan : Plan) (nodes : List PlanNode) :
    List (String × Json) → List (String × Json)
  | [] => []
  | (key, value) :: rest =>
    if allow nodes key then
      (key, plan.pruneAt (nodes.flatMap fun node => node.memberNodes key) value)
        :: plan.pruneMembers nodes rest
    else plan.pruneMembers nodes rest

/-- The items from the place `index` on, each pruned in turn. -/
def pruneItems (plan : Plan) (nodes : List PlanNode) (index : Nat) : List Json → List Json
  | [] => []
  | item :: rest =>
    plan.pruneAt (nodes.filterMap fun node => node.outline.itemNode? index) item
      :: plan.pruneItems nodes (index + 1) rest

end

/-- **Pruning.**  The value without the members that no schema has room for. -/
def prune (plan : Plan) (value : Json) : Json :=
  plan.pruneAt [""] value

end Plan

end SchemaAlgebra
