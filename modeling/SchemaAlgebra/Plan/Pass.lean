import SchemaAlgebra.Issue
import SchemaAlgebra.Plan.Basic

/-!
# The transform pass

Transforms run on the members and items of a value before they run on the value itself, and every
decision of a matcher is taken on the value as it was before (`Position.origin`).

At one place a node is visited once, however many ways lead to it.  Of the branches that accept the
value, the first whose transforms complain about nothing is taken; only if none is taken are the
complaints of all of them reported.

A `Pass` is what a part of the run leads to: the calls made, the issues reported, and the value, or
why the run stops.  A function may make a value that again reaches a node with that function, so the
run recurs with a budget of steps, and one that exceeds it is `Halt.exhausted`.
-/

namespace SchemaAlgebra

/-- Why a run stops before its end. -/
inductive Halt where
  /-- A transform failed. -/
  | failed (transformation : String) (instancePath : Pointer) (source : TransformError)
  /-- The budget of steps is exceeded. -/
  | exhausted
deriving DecidableEq, Inhabited

/-- A call of a transform. -/
structure Call where
  /-- The node that lists the transform. -/
  node : Pointer
  /-- Where the value stands. -/
  instancePath : Pointer
  /-- The name of the transform. -/
  transformation : String
  /-- The value it was called on. -/
  input : Json
deriving DecidableEq, Inhabited

/-- What a part of a run leads to. -/
structure Pass (α : Type) where
  /-- The calls made, in order. -/
  calls : List Call := []
  /-- The issues reported, in order. -/
  issues : List Issue := []
  /-- The result, or why the run stops. -/
  outcome : Except Halt α

namespace Pass

variable {α β : Type}

/-- A run that does nothing. -/
def done (a : α) : Pass α :=
  { outcome := .ok a }

/-- A run that stops. -/
def halt (h : Halt) : Pass α :=
  { outcome := .error h }

/-- A run that goes on with the result of another. -/
def andThen (first : Pass α) (next : α → Pass β) : Pass β :=
  match first.outcome with
  | .error h => { calls := first.calls, issues := first.issues, outcome := .error h }
  | .ok a =>
    let second := next a
    { calls := first.calls ++ second.calls
      issues := first.issues ++ second.issues
      outcome := second.outcome }

instance : Monad Pass where
  pure := done
  bind := andThen

instance [Inhabited α] : Inhabited (Pass α) := ⟨done default⟩

/-- The run with its issues left out. -/
def silenced (p : Pass α) : Pass α :=
  { p with issues := [] }

/-- The run that only made these calls and reported these issues. -/
def record (calls : List Call) (issues : List Issue) : Pass Unit :=
  { calls := calls, issues := issues, outcome := .ok () }

end Pass

/-- Where a value stands in the validated value. -/
structure Position where
  /-- Its pointer. -/
  path : Pointer
  /-- The last token of the pointer, if there is one. -/
  key : Option String
  /-- The value that stood there before the run. -/
  origin : Json
deriving DecidableEq, Inhabited

namespace Position

/-- The position of the whole value. -/
def root (value : Json) : Position :=
  ⟨"", none, value⟩

/-- The position of a member or item, which has the value `current`.  One that was made by a
transform counts as what stood there before. -/
def child (at_ : Position) (key : String) (current : Json) : Position :=
  ⟨Pointer.child at_.path key, some key,
    (Json.step? Pointer.lenientIndex? at_.origin key).getD current⟩

end Position

/-- A visit of a node with a value, given the nodes already visited at its position; the result is
the new value, and the nodes visited then. -/
abbrev Visit := Pointer → Position → Json → List Pointer → Pass (Json × List Pointer)

namespace Plan

/-! ## Chains -/

/-- What the run of a chain leads to. -/
structure ChainRun where
  /-- The names of the functions called, with the values they were called on. -/
  inputs : List (String × Json) := []
  /-- The complaints made. -/
  reported : List TransformIssue := []
  /-- The last value, or the function that failed and its failure. -/
  outcome : Except (String × TransformError) Json

/-- Runs functions one after another, in contexts that differ in the name of the function. -/
def runFunctions (context : String → TransformContext) : Chain → Json → ChainRun
  | [], value => { outcome := .ok value }
  | (name, transform) :: chain, value =>
    let result := transform (context name) value
    match result.outcome with
    | .error failure =>
      { inputs := [(name, value)], reported := result.issues, outcome := .error (name, failure) }
    | .ok next =>
      let run := runFunctions context chain next
      { inputs := (name, value) :: run.inputs
        reported := result.issues ++ run.reported
        outcome := run.outcome }

/-- The schema that a node's transforms are listed in. -/
def parentSchema (plan : Plan) (pointer : Pointer) : Json :=
  (plan.document.resolve? pointer).getD .null

/-- The issue of a complaint made by a transform of a node; `value` is the value after the chain. -/
def issueOf (plan : Plan) (pointer : Pointer) (at_ : Position) (value : Json)
    (complaint : TransformIssue) : Issue where
  keyword := "transform"
  instancePath := at_.path
  schemaPath := Pointer.join pointer ["transform"]
  message := complaint.message
  params := complaint.params
  schema := (plan.parentSchema pointer).member? "transform"
  parentSchema := some (plan.parentSchema pointer)
  data := some value

/-- Runs the transforms of a node. -/
def runChain (plan : Plan) (node : PlanNode) (at_ : Position) (value : Json) : Pass Json :=
  let pointer := node.outline.pointer
  let run := runFunctions
    (fun name => ⟨name, at_.path, at_.key, plan.parentSchema pointer⟩) node.chain value
  let calls := run.inputs.map fun (name, input) => ⟨pointer, at_.path, name, input⟩
  match run.outcome with
  | .error (name, failure) =>
    { calls := calls, outcome := .error (.failed name at_.path failure) }
  | .ok last =>
    { calls := calls
      issues := run.reported.map (plan.issueOf pointer at_ last)
      outcome := .ok last }

/-! ## Members and items -/

/-- Visits a node with a member or item. -/
def visitChild (visit : Visit) (at_ : Position) (key : String) (child : Pointer) (value : Json) :
    Pass Json :=
  Prod.fst <$> visit child (at_.child key value) value []

/-- Visits a node with the members whose keys are selected. -/
def visitMembers (visit : Visit) (at_ : Position) (selects : String → Bool) (child : Pointer)
    (members : Entries Json) : Pass (Entries Json) :=
  members.mapM fun (key, value) =>
    if selects key then do return (key, ← visitChild visit at_ key child value)
    else return (key, value)

/-- Visits the nodes of items. -/
def visitItems (visit : Visit) (node : PlanNode) (at_ : Position) (items : List Json) :
    Pass (List Json) :=
  items.zipIdx.mapM fun (item, index) =>
    match node.outline.itemNode? index with
    | some child => visitChild visit at_ (Pointer.indexToken index) child item
    | none => return item

/-- Visits the nodes of the members or items of a value. -/
def visitInside (visit : Visit) (node : PlanNode) (at_ : Position) (value : Json) : Pass Json :=
  match value with
  | .object members => do
    return .object (← node.memberRules.foldlM
      (fun members (selects, child) => visitMembers visit at_ selects child members) members)
  | .array items => do return .array (← visitItems visit node at_ items)
  | value => return value

/-! ## Branches and conditions -/

/-- Tries branches in turn: those that accept the value as it was before the run are visited, and
the first that is not active or reports nothing is taken.  `rejected` are the issues of those
visited before. -/
def tryBranches (plan : Plan) (visit : Visit) (at_ : Position) (value : Json)
    (seen : List Pointer) : List (Matcher × Pointer) → List Issue → Pass Json
  | [], rejected => { issues := rejected, outcome := .ok value }
  | (matcher, branch) :: rest, rejected =>
    if !matcher.accepts at_.origin then plan.tryBranches visit at_ value seen rest rejected
    else if !(plan.node branch).active then .done value
    else
      let tried := visit branch at_ value seen
      match tried.outcome with
      | .error h => { calls := tried.calls, issues := tried.issues, outcome := .error h }
      | .ok (result, _) =>
        if tried.issues.isEmpty then { calls := tried.calls, outcome := .ok result }
        else do
          Pass.record tried.calls []
          plan.tryBranches visit at_ value seen rest (rejected ++ tried.issues)

/-- The node that the condition of a node selects for a value. -/
def selected? (node : PlanNode) (origin : Json) : Option Pointer :=
  node.condition.bind fun matcher =>
    if matcher.accepts origin then node.outline.consequent else node.outline.alternative

/-! ## Nodes -/

/-- Visits nodes in turn with one value. -/
def visitEach (visit : Visit) (at_ : Position) (nodes : List Pointer) (value : Json)
    (seen : List Pointer) : Pass (Json × List Pointer) :=
  nodes.foldlM (fun (value, seen) node => visit node at_ value seen) (value, seen)

/-- Visits an active node for the first time at a position: what is inside the value, the nodes that
apply to the value, the branches, the condition, and last the transforms of the node. -/
def visitNode (plan : Plan) (visit : Visit) (node : PlanNode) (at_ : Position) (value : Json)
    (seen : List Pointer) : Pass (Json × List Pointer) := do
  let value ← visitInside visit node at_ value
  let (value, seen) ← visitEach visit at_ node.outline.conjuncts value seen
  let value ← plan.tryBranches visit at_ value seen node.branches []
  let (value, seen) ← visitEach visit at_ (selected? node at_.origin).toList value seen
  return (← plan.runChain node at_ value, seen)

/-- Visits a node, within a budget of steps. -/
def visit (plan : Plan) : Nat → Visit
  | 0, _, _, _, _ => .halt .exhausted
  | steps + 1, pointer, at_, value, seen =>
    let node := plan.node pointer
    if !node.active || pointer ∈ seen then .done (value, seen)
    else plan.visitNode (plan.visit steps) node at_ value (pointer :: seen)

/-- Runs the transforms on a value, within a budget of steps. -/
def run (plan : Plan) (steps : Nat) (value : Json) : Pass Json :=
  Prod.fst <$> plan.visit steps "" (.root value) value []

/-- The greatest number of visits inside one another. -/
def nestingLimit : Nat := 4096

/-- **The transform pass.** -/
def apply (plan : Plan) (value : Json) : Pass Json :=
  plan.run nestingLimit value

end Plan

end SchemaAlgebra
