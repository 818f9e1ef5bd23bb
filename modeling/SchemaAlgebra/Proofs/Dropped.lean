import SchemaAlgebra.Proofs.Alongside
import SchemaAlgebra.Proofs.Pruning
import SchemaAlgebra.Proofs.Termination

/-!
# Plans without some branches

A node with branches under two keywords has one list of them, in which those of one keyword stand in
front.  If none of those of one keyword is active, a plan without them leads to the same, unless they
get in the way of the others: one of them that accepts the value is taken as it is, so the others are
not tried if they stand behind, and their complaints are dropped if they stand in front.

* `Plan.Drops` — a plan has the nodes of another, less some branches.
* `Plan.Unaffected` — nothing gets in the way when branches are tried.
* `Plan.Drops.alongside` — the runs of both go along, if all that is unaffected.
-/

namespace SchemaAlgebra

/-- The outline without some branches. -/
def Outline.dropBranches (outline : Outline) (dropped : List Pointer) : Outline :=
  { outline with branches := outline.branches.filter fun branch => branch ∉ dropped }

namespace Plan

open Traced

/-- The branches of a node that are dropped. -/
def idleBranches (node : PlanNode) (dropped : List Pointer) : List (Matcher × Pointer) :=
  node.branches.filter fun branch => branch.2 ∈ dropped

/-- The branches of a node that are left. -/
def otherBranches (node : PlanNode) (dropped : List Pointer) : List (Matcher × Pointer) :=
  node.branches.filter fun branch => branch.2 ∉ dropped

/-- At these nodes the second plan is the first without some branches, none of them active, which are
listed before or after all others. -/
structure Drops (plan plan' : Plan) (nodes : List Pointer) (dropped : Pointer → List Pointer)
    (inFront : Bool) : Prop where
  closed : ∀ pointer ∈ nodes, ∀ child ∈ (plan'.node pointer).outline.children, child ∈ nodes
  outline : ∀ pointer ∈ nodes,
    (plan'.node pointer).outline = (plan.node pointer).outline.dropBranches (dropped pointer)
  active : ∀ pointer ∈ nodes, (plan'.node pointer).active = (plan.node pointer).active
  chain : ∀ pointer ∈ nodes, (plan'.node pointer).chain = (plan.node pointer).chain
  patterns : ∀ pointer ∈ nodes, (plan'.node pointer).patterns = (plan.node pointer).patterns
  ruled : ∀ pointer ∈ nodes, ∀ pattern ∈ (plan'.node pointer).patterns,
    pattern.2 ∈ (plan'.node pointer).outline.patterns.map Prod.snd
  listed : ∀ pointer ∈ nodes, ∀ branch ∈ (plan'.node pointer).branches,
    branch.2 ∈ (plan'.node pointer).outline.branches
  branches : ∀ pointer ∈ nodes, (plan'.node pointer).branches.map Prod.snd
    = (otherBranches (plan.node pointer) (dropped pointer)).map Prod.snd
  idle : ∀ pointer ∈ nodes, ∀ branch ∈ idleBranches (plan.node pointer) (dropped pointer),
    (plan.node branch.2).active = false
  order : ∀ pointer ∈ nodes, (plan.node pointer).branches
    = if inFront then idleBranches (plan.node pointer) (dropped pointer)
        ++ otherBranches (plan.node pointer) (dropped pointer)
      else otherBranches (plan.node pointer) (dropped pointer)
        ++ idleBranches (plan.node pointer) (dropped pointer)
  schema : ∀ pointer ∈ nodes, plan'.parentSchema pointer = plan.parentSchema pointer
    ∨ ∀ entry ∈ (plan.node pointer).chain, entry.2.IgnoresSchema

/-- The dropped branches do not get in the way when branches are tried: if one of them accepts the
value, then of the others behind it the first that accepts the value, if any, is not active, and those
in front of it complain about nothing. -/
def Harmless (plan plan' : Plan) (dropped : List Pointer) (inFront : Bool) (event : Event) : Prop :=
  anyAccepts (idleBranches (plan.node event.node) dropped) event.position.origin = true →
    if inFront then
      ((plan'.node event.node).branches.find? fun branch =>
        branch.1.accepts event.position.origin).all (fun branch => !(plan'.node branch.2).active) = true
    else ∀ steps, (plan'.tryBranches (plan'.visit steps) event.position event.value event.seen
      (plan'.node event.node).branches []).issues = []

/-- Dropping branches changes nothing at an event: the matchers of the other branches and of the
condition decide alike, and the dropped branches do not get in the way. -/
structure Unaffected (plan plan' : Plan) (dropped : Pointer → List Pointer) (inFront : Bool)
    (event : Event) : Prop where
  verdicts : (otherBranches (plan.node event.node) (dropped event.node)).map
      (fun branch => branch.1.accepts event.position.origin)
    = (plan'.node event.node).branches.map fun branch => branch.1.accepts event.position.origin
  condition : (plan.node event.node).condition.map (·.accepts event.position.origin)
    = (plan'.node event.node).condition.map (·.accepts event.position.origin)
  harmless : Harmless plan plan' (dropped event.node) inFront event

/-- Nothing is done if the first branch that accepts the value is not active. -/
lemma tryBranches_of_first {plan : Plan} {visit : Visit} {at_ : Position} {value : Json}
    {seen : List Pointer} {branches : List (Matcher × Pointer)}
    (h : (branches.find? fun branch => branch.1.accepts at_.origin).all
      (fun branch => !(plan.node branch.2).active) = true) :
    plan.tryBranches visit at_ value seen branches [] = .done value := by
  induction branches with
  | nil => rfl
  | cons branch branches ih =>
    obtain ⟨matcher, pointer⟩ := branch
    rw [tryBranches]
    cases haccepts : matcher.accepts at_.origin with
    | false => exact ih (by simpa [List.find?_cons, haccepts] using h)
    | true =>
      have hactive : (plan.node pointer).active = false := by
        simpa [List.find?_cons, haccepts] using h
      simp [hactive]

namespace Drops

variable {plan plan' : Plan} {nodes : List Pointer} {dropped : Pointer → List Pointer}
  {inFront : Bool} {pointer child : Pointer}

lemma memberRules (h : Drops plan plan' nodes dropped inFront) (hpointer : pointer ∈ nodes) :
    (plan'.node pointer).memberRules = (plan.node pointer).memberRules := by
  simp only [PlanNode.memberRules, PlanNode.covers, PlanNode.hasPatternFor, h.outline pointer hpointer,
    h.patterns pointer hpointer, Outline.dropBranches]

lemma mem_of_rule (h : Drops plan plan' nodes dropped inFront) (hpointer : pointer ∈ nodes)
    {rule : (String → Bool) × Pointer} (hrule : rule ∈ (plan.node pointer).memberRules) :
    rule.2 ∈ nodes := by
  rw [← h.memberRules hpointer] at hrule
  refine h.closed pointer hpointer _ (Outline.mem_children_of_member ?_)
  simp only [PlanNode.memberRules, List.mem_append, List.mem_map] at hrule
  rcases hrule with (⟨property, hproperty, rfl⟩ | ⟨pattern, hpattern, rfl⟩) | ⟨child, hchild, rfl⟩
  · exact Or.inl (List.mem_map_of_mem hproperty)
  · exact Or.inr (Or.inl (h.ruled pointer hpointer pattern hpattern))
  · exact Or.inr (Or.inr hchild)

lemma itemNode? (h : Drops plan plan' nodes dropped inFront) (hpointer : pointer ∈ nodes) :
    (plan'.node pointer).outline.itemNode? = (plan.node pointer).outline.itemNode? := by
  rw [h.outline pointer hpointer]
  rfl

lemma conjuncts (h : Drops plan plan' nodes dropped inFront) (hpointer : pointer ∈ nodes) :
    (plan'.node pointer).outline.conjuncts = (plan.node pointer).outline.conjuncts := by
  rw [h.outline pointer hpointer]
  rfl

/-- The condition selects the same node, if its matcher decides alike. -/
lemma selected? (h : Drops plan plan' nodes dropped inFront) (hpointer : pointer ∈ nodes)
    {origin : Json} (hverdict : (plan.node pointer).condition.map (·.accepts origin)
      = (plan'.node pointer).condition.map (·.accepts origin)) :
    Plan.selected? (plan'.node pointer) origin = Plan.selected? (plan.node pointer) origin := by
  have hbind : ∀ node : PlanNode, Plan.selected? node origin
      = (node.condition.map (·.accepts origin)).bind fun accepted =>
          if accepted then node.outline.consequent else node.outline.alternative := by
    intro node
    rw [Plan.selected?, Option.bind_map]
    rfl
  rw [hbind, hbind, hverdict, h.outline pointer hpointer]
  rfl

lemma forall₂_of_map_eq {α β γ : Type} {f : α → β} {g : α → γ} {as bs : List α}
    (hf : as.map f = bs.map f) (hg : as.map g = bs.map g) :
    List.Forall₂ (fun a b => f a = f b ∧ g a = g b) as bs := by
  induction as generalizing bs with
  | nil =>
    obtain rfl := List.map_eq_nil_iff.1 hf.symm
    exact .nil
  | cons a as ih =>
    cases bs with
    | nil => simp at hf
    | cons b bs =>
      simp only [List.map_cons, List.cons.injEq] at hf hg
      exact .cons ⟨hf.1, hg.1⟩ (ih hf.2 hg.2)

variable {P : Event → Prop} {at_ : Position} {value : Json}
  {seen : List Pointer} {route : Route}

/-- **Branches of a node.**  Those left go along, and the dropped ones are harmless. -/
lemma alongside_tryBranches (h : Drops plan plan' nodes dropped inFront) (hpointer : pointer ∈ nodes)
    {steps : ℕ} (hvisit : ∀ child ∈ nodes, ∀ route, Alongside P (plan.visit steps child at_ value seen)
      (plan'.trace steps route child at_ value seen))
    (hunaffected : Unaffected plan plan' dropped inFront ⟨.union, route, pointer, at_, value, seen⟩) :
    Alongside P (plan.tryBranches (plan.visit steps) at_ value seen (plan.node pointer).branches [])
      (plan'.traceBranches (plan'.trace steps) route pointer at_ value seen
        (plan'.node pointer).branches.zipIdx []) := by
  have hbranch : ∀ branch ∈ (plan'.node pointer).branches, branch.2 ∈ nodes := by
    intro branch hbranch
    exact h.closed pointer hpointer _
      (Outline.branches_subset_children _ (h.listed pointer hpointer branch hbranch))
  have hsame := forall₂_of_map_eq (h.branches pointer hpointer).symm hunaffected.verdicts
  have hothers : Alongside P (plan.tryBranches (plan.visit steps) at_ value seen
        (otherBranches (plan.node pointer) (dropped pointer)) [])
      (plan'.traceBranches (plan'.trace steps) route pointer at_ value seen
        (plan'.node pointer).branches.zipIdx []) :=
    alongside_branches hsame (fun branch hmem => h.active branch.2 (hbranch branch hmem))
      (fun branch hmem => hvisit branch.2 (hbranch branch hmem)) rfl 0
  -- the branches dropped stand in front of those left or behind them, and matter in two ways
  intro hevents
  have halike := hothers hevents
  rw [(erases_trace plan' steps).traceBranches] at halike ⊢
  rw [h.order pointer hpointer]
  cases hfront : inFront with
  | true =>
    rw [if_pos rfl, tryBranches_front (h.idle pointer hpointer)]
    split
    · rename_i haccepts
      -- the first plan ends with one of the branches dropped, which is not active
      have hfirst := hunaffected.harmless haccepts
      rw [if_pos hfront] at hfirst
      rw [tryBranches_of_first hfirst]
      exact .refl _
    · exact halike
  | false =>
    rw [if_neg (by simp), tryBranches_back (h.idle pointer hpointer), Pass.letGo]
    split
    · rename_i haccepts
      rw [Bool.and_eq_true] at haccepts
      -- issues of the branches left are let go if a branch dropped is accepted; there are none
      have hquiet := hunaffected.harmless haccepts.1
      rw [if_neg (by simp [hfront])] at hquiet
      refine ⟨halike.calls, ?_, halike.outcome⟩
      rw [hquiet steps]
      rfl
    · exact halike

/-- **Side by side.**  By induction on the budget of steps. -/
lemma alongside (h : Drops plan plan' nodes dropped inFront) (steps : ℕ) (hpointer : pointer ∈ nodes)
    (route : Route) (at_ : Position) (value : Json) (seen : List Pointer) :
    Alongside (fun event => event.stage = .union → event.node ∈ nodes →
        Unaffected plan plan' dropped inFront event) (plan.visit steps pointer at_ value seen)
      (plan'.trace steps route pointer at_ value seen) := by
  induction steps generalizing pointer route at_ value seen with
  | zero => exact Alongside.emit fun _ _ => .refl _
  | succ steps ih =>
    refine Alongside.emit fun _ => ?_
    simp only [visit, h.active pointer hpointer]
    split
    · exact alongside_pure _
    have hpointer' := pointer_node plan' pointer
    refine Alongside.bind (alongside_inside (h.memberRules hpointer) (h.itemNode? hpointer) ?_) fun _ value _ => ?_
    · rintro child (⟨rule, hrule, rfl⟩ | ⟨index, hindex⟩) route at_ value seen
      · exact ih (h.mem_of_rule hpointer hrule) route at_ value seen
      · rw [← h.itemNode? hpointer] at hindex
        exact ih (h.closed pointer hpointer _ (Outline.mem_children_of_itemNode? hindex)) route at_
          value seen
    refine Alongside.bind ?_ fun _ reached _ => ?_
    · rw [h.conjuncts hpointer]
      refine alongside_each fun child hchild value seen => ih ?_ route at_ value seen
      rw [← h.conjuncts hpointer] at hchild
      exact h.closed pointer hpointer child (conjuncts_subset_children hchild)
    refine Alongside.emit fun hunaffected => ?_
    rw [hpointer'] at hunaffected ⊢
    have hunaffected := hunaffected rfl hpointer
    refine Alongside.bind (h.alongside_tryBranches hpointer
      (fun child hchild route => ih hchild route at_ reached.1 reached.2) hunaffected) fun _ value _ => ?_
    refine Alongside.bind ?_ fun _ reached _ => ?_
    · rw [h.selected? hpointer hunaffected.condition]
      refine alongside_each fun child hchild value seen => ih ?_ route at_ value seen
      rw [← h.selected? hpointer hunaffected.condition] at hchild
      exact h.closed pointer hpointer child (Outline.followers_subset_children _
        (mem_followers_of_selected? (Option.mem_toList.1 hchild)))
    refine Alongside.map (fun _ => ?_) _
    exact alike_runChain (by rw [h.outline pointer hpointer]; rfl) (h.chain pointer hpointer)
      (by rw [pointer_node]; exact h.schema pointer hpointer) at_ reached.1

/-- **Runs without some branches** lead to the same, if nothing is changed where branches are tried. -/
lemma run_alike (h : Drops plan plan' nodes dropped inFront) (hroot : "" ∈ nodes) {steps : ℕ}
    {value : Json} (hunaffected : ∀ event ∈ (plan'.traceRun steps value).events,
      event.stage = .union → event.node ∈ nodes → Unaffected plan plan' dropped inFront event) :
    (plan.run steps value).Alike (plan'.run steps value) := by
  rw [← pass_traceRun plan']
  exact (h.alongside steps hroot [] (.root value) value []).map Prod.fst hunaffected

end Drops

end Plan

end SchemaAlgebra
