import SchemaAlgebra.Proofs.Trace

/-!
# Runs whose decisions are given

A pass asks matchers at two places: which branches of a node are to be tried, and which side the
condition of a node selects.  `Plan.runBy` asks none.  It is the pass with each `Decision` read off a
table of nodes and positions, which is there before the run and knows nothing of it.

So a table that governs a run says what the run decides, and two runs that are governed by one table
decide alike wherever they come to.

* `Decision`, `PlanNode.decide` — what matchers are asked for at a node, and what they say to a value.
* `Plan.AgreeAt.visitNode` — a visit takes the decisions that a table lists, step by step.
* `Plan.run_eq_runBy` — the run does, if the table has them right for all positions it may come to.
-/

namespace SchemaAlgebra

/-- What matchers are asked for at a node and a position. -/
structure Decision where
  /-- The branches to be tried, in order. -/
  branches : List Pointer
  /-- The side of the condition to be taken. -/
  side : Option Pointer
deriving DecidableEq

/-- Decisions for every node at every position. -/
abbrev Decisions := Pointer → Position → Decision

/-- The branches of a node that accept a value. -/
def PlanNode.acceptedBranches (node : PlanNode) (origin : Json) : List Pointer :=
  (node.branches.filter fun branch => branch.1.accepts origin).map Prod.snd

/-- What the matchers of a node say to a value. -/
def PlanNode.decide (node : PlanNode) (origin : Json) : Decision :=
  ⟨node.acceptedBranches origin, Plan.selected? node origin⟩

namespace Plan

/-! ## The pass that asks no matcher -/

/-- Tries the branches that are listed in turn: the first that is not active or reports nothing is
taken. -/
def tryListed (plan : Plan) (visit : Visit) (at_ : Position) (value : Json) (seen : List Pointer) :
    List Pointer → List Issue → Pass Json
  | [], rejected => { issues := rejected, outcome := .ok value }
  | branch :: rest, rejected =>
    if !(plan.node branch).active then .done value
    else (visit branch at_ value seen).settle fun issues =>
      plan.tryListed visit at_ value seen rest (rejected ++ issues)

/-- Visits an active node for the first time at a position, as a decision has it. -/
def visitNodeBy (plan : Plan) (decision : Decision) (visit : Visit) (node : PlanNode)
    (at_ : Position) (value : Json) (seen : List Pointer) : Pass (Json × List Pointer) := do
  let value ← visitInside visit node at_ value
  let (value, seen) ← visitEach visit at_ node.outline.conjuncts value seen
  let value ← plan.tryListed visit at_ value seen decision.branches []
  let (value, seen) ← visitEach visit at_ decision.side.toList value seen
  return (← plan.runChain node at_ value, seen)

/-- Visits a node, within a budget of steps, as decisions have it. -/
def visitBy (plan : Plan) (decisions : Decisions) : ℕ → Visit
  | 0, _, _, _, _ => .halt .exhausted
  | steps + 1, pointer, at_, value, seen =>
    let node := plan.node pointer
    if !node.active || pointer ∈ seen then .done (value, seen)
    else plan.visitNodeBy (decisions pointer at_) (plan.visitBy decisions steps) node at_ value
      (pointer :: seen)

/-- Runs the transforms on a value, within a budget of steps, as decisions have it. -/
def runBy (plan : Plan) (decisions : Decisions) (steps : ℕ) (value : Json) : Pass Json :=
  Prod.fst <$> plan.visitBy decisions steps "" (.root value) value []

/-! ## Visits that agree -/

/-- Two visits are the same at all positions with a property. -/
def AgreeAt (R : Position → Prop) (visit visit' : Visit) : Prop :=
  ∀ pointer at_ value seen, R at_ → visit pointer at_ value seen = visit' pointer at_ value seen

section
variable {plan : Plan} {R : Position → Prop} {visit visit' : Visit} {at_ : Position}

lemma AgreeAt.visitChild (h : AgreeAt R visit visit') (hat : ∀ key current, R (at_.child key current))
    (key : String) (child : Pointer) (value : Json) :
    visitChild visit at_ key child value = visitChild visit' at_ key child value :=
  congrArg (Prod.fst <$> ·) (h child _ value [] (hat key value))

lemma AgreeAt.visitMembers (h : AgreeAt R visit visit') (hat : ∀ key current, R (at_.child key current))
    (selects : String → Bool) (child : Pointer) (members : Entries Json) :
    visitMembers visit at_ selects child members = visitMembers visit' at_ selects child members := by
  simp only [Plan.visitMembers, h.visitChild hat]

lemma AgreeAt.visitItems (h : AgreeAt R visit visit') (hat : ∀ key current, R (at_.child key current))
    (node : PlanNode) (items : List Json) :
    visitItems visit node at_ items = visitItems visit' node at_ items := by
  simp only [Plan.visitItems, h.visitChild hat]

lemma AgreeAt.visitInside (h : AgreeAt R visit visit') (hat : ∀ key current, R (at_.child key current))
    (node : PlanNode) (value : Json) :
    visitInside visit node at_ value = visitInside visit' node at_ value := by
  cases value with
  | object members => simp only [Plan.visitInside, h.visitMembers hat]
  | array items => simp only [Plan.visitInside, h.visitItems hat]
  | _ => rfl

lemma AgreeAt.visitEach (h : AgreeAt R visit visit') (hat : R at_) (nodes : List Pointer)
    (value : Json) (seen : List Pointer) :
    visitEach visit at_ nodes value seen = visitEach visit' at_ nodes value seen := by
  refine congrArg (fun step => nodes.foldlM step (value, seen)) (funext ?_)
  rintro ⟨value, seen⟩
  exact funext fun node => h node at_ value seen hat

/-- Branches that do not accept the value are passed, so the others might as well be listed. -/
lemma AgreeAt.tryBranches (h : AgreeAt R visit visit') (hat : R at_) (value : Json)
    (seen : List Pointer) (branches : List (Matcher × Pointer)) (rejected : List Issue) :
    plan.tryBranches visit at_ value seen branches rejected
      = plan.tryListed visit' at_ value seen
          ((branches.filter fun branch => branch.1.accepts at_.origin).map Prod.snd) rejected := by
  induction branches generalizing rejected with
  | nil => rfl
  | cons entry rest ih =>
    obtain ⟨matcher, branch⟩ := entry
    rw [tryBranches_cons]
    cases haccepts : matcher.accepts at_.origin with
    | false => simpa [haccepts] using ih rejected
    | true =>
      have hlisted : (((matcher, branch) :: rest).filter fun entry => entry.1.accepts at_.origin)
          = (matcher, branch) :: rest.filter fun entry => entry.1.accepts at_.origin :=
        List.filter_cons_of_pos haccepts
      rw [hlisted, List.map_cons, tryListed, h branch at_ value seen hat]
      simp only [ih]
      rfl

/-- **One visit** decides as the node does on the value that was there before the run. -/
lemma AgreeAt.visitNode (h : AgreeAt R visit visit') (hat : R at_)
    (hinside : ∀ key current, R (at_.child key current)) (node : PlanNode) (value : Json)
    (seen : List Pointer) :
    plan.visitNode visit node at_ value seen
      = plan.visitNodeBy (node.decide at_.origin) visit' node at_ value seen := by
  simp only [Plan.visitNode, visitNodeBy, PlanNode.decide, PlanNode.acceptedBranches,
    h.visitInside hinside, h.visitEach hat, h.tryBranches hat]

/-- **The whole visit**, by induction on the budget. -/
lemma agreeAt_visit {decisions : Decisions}
    (hchild : ∀ at_ key current, R at_ → R (at_.child key current))
    (hdecide : ∀ pointer at_, R at_ →
      (plan.node pointer).decide at_.origin = decisions pointer at_) (steps : ℕ) :
    AgreeAt R (plan.visit steps) (plan.visitBy decisions steps) := by
  induction steps with
  | zero => intro pointer at_ value seen _; rfl
  | succ steps ih =>
    intro pointer at_ value seen hat
    rw [visit, visitBy, ih.visitNode hat fun key current => hchild at_ key current hat,
      hdecide pointer at_ hat]

/-- **A run is governed by a table** that has right what the nodes of the plan decide, at all positions
that may come up in the run. -/
theorem run_eq_runBy {decisions : Decisions} {value : Json} (hroot : R (.root value))
    (hchild : ∀ at_ key current, R at_ → R (at_.child key current))
    (hdecide : ∀ pointer at_, R at_ →
      (plan.node pointer).decide at_.origin = decisions pointer at_) (steps : ℕ) :
    plan.run steps value = plan.runBy decisions steps value :=
  congrArg (Prod.fst <$> ·) (agreeAt_visit hchild hdecide steps "" _ value [] hroot)

end

end Plan

end SchemaAlgebra
