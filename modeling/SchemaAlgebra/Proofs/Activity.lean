import SchemaAlgebra.Proofs.Pruning
import SchemaAlgebra.Proofs.Trace

/-!
# Nodes that need not be visited

A node that is not active leads to no transform, so its visit is all for nothing.  The pass leaves it
out, takes an accepting branch of that kind as it is, and has no matchers for branches and conditions
that nothing active depends on.  The plain pass makes no such difference: `Plan.plain` is the plan in
which every node is active and every branch and condition has a matcher.

* `Pass.Mirrors` — a pass does what another one does, if that does not exceed its budget.
* `Plan.mirrors_idleVisit` — in the plain pass the visit of a node that is not active does nothing.
* `Plan.mirrors_visit` — a visit does what it does in the plain pass.
* `Plan.run_eq_run_plain` — whenever the plain pass ends, the pass is the same.

The nodes seen are not the same in both passes: the plain pass also sees nodes that are not active.  Of
those that are active both have seen the same (`Plan.SameSeen`), and no others are asked for.
-/

namespace SchemaAlgebra

/-! ## Passes that mirror others -/

namespace Pass

variable {α β γ δ : Type} {R : α → β → Prop} {S : γ → δ → Prop} {p : Pass α} {q : Pass β}

/-- **A pass mirrors another** if, unless the other exceeds its budget, it makes the same calls, reports
the same issues, and stops for the same reason or leads to a result that `R` relates to the other's. -/
def Mirrors (R : α → β → Prop) (p : Pass α) (q : Pass β) : Prop :=
  q.Finished → p.calls = q.calls ∧ p.issues = q.issues
    ∧ (∀ halt, q.outcome = .error halt → p.outcome = .error halt)
    ∧ ∀ b, q.outcome = .ok b → ∃ a, p.outcome = .ok a ∧ R a b

lemma mirrors_refl (p : Pass α) : Mirrors Eq p p :=
  fun _ => ⟨rfl, rfl, fun _ h => h, fun a h => ⟨a, h, rfl⟩⟩

lemma mirrors_pure {a : α} {b : β} (h : R a b) : Mirrors R (pure a) (pure b) := by
  refine fun _ => ⟨rfl, rfl, fun halt hhalt => ?_, fun c hc => ⟨a, rfl, ?_⟩⟩
  · exact absurd hhalt (by simp [pure, done])
  · have hbc : b = c := Except.ok.inj hc
    exact hbc ▸ h

lemma finished_of_bind {next : β → Pass δ} (h : (q >>= next).Finished) : q.Finished := by
  intro hq
  exact h (outcome_bind_of_error hq next)

/-- **Sequences.**  What is left of a sequence that does not exceed its budget does not exceed it. -/
lemma Mirrors.bind {next : α → Pass γ} {next' : β → Pass δ} (h : Mirrors R p q)
    (hnext : ∀ a b, R a b → Mirrors S (next a) (next' b)) : Mirrors S (p >>= next) (q >>= next') := by
  intro hfinished
  obtain ⟨hcalls, hissues, herror, hok⟩ := h (finished_of_bind hfinished)
  cases hq : q.outcome with
  | error halt =>
    rw [bind_eq, bind_eq, andThen_of_error hq, andThen_of_error (herror halt hq)]
    exact ⟨hcalls, hissues, fun _ h => by simpa using h, fun _ h => by simp at h⟩
  | ok b =>
    obtain ⟨a, ha, hab⟩ := hok b hq
    have hfinished' : (next' b).Finished := by
      rwa [Finished, outcome_bind_of_ok hq] at hfinished
    obtain ⟨hcalls', hissues', hrest⟩ := hnext a b hab hfinished'
    rw [bind_eq, bind_eq, andThen_of_ok hq, andThen_of_ok ha]
    exact ⟨by rw [hcalls, hcalls'], by rw [hissues, hissues'], hrest⟩

/-- What mirrors a pass that does not exceed its budget, with the same result, is that pass. -/
lemma Mirrors.eq {p q : Pass α} (h : Mirrors Eq p q) (hfinished : q.Finished) : p = q := by
  obtain ⟨hcalls, hissues, herror, hok⟩ := h hfinished
  have houtcome : p.outcome = q.outcome := by
    cases hq : q.outcome with
    | error halt => exact herror halt hq
    | ok result =>
      obtain ⟨_, hresult, rfl⟩ := hok result hq
      exact hresult
  calc p = ⟨p.calls, p.issues, p.outcome⟩ := rfl
    _ = q := by rw [hcalls, hissues, houtcome]

/-- A part that is mirrored by doing nothing can be left out. -/
lemma Mirrors.skip {a : α} {rest : Pass γ} {next : β → Pass δ} (h : Mirrors R (pure a) q)
    (hnext : ∀ b, R a b → Mirrors S rest (next b)) : Mirrors S rest (q >>= next) := by
  have hvalue : Mirrors (fun _ b => R a b) (pure a) q := by
    intro hfinished
    obtain ⟨hcalls, hissues, herror, hok⟩ := h hfinished
    refine ⟨hcalls, hissues, herror, fun b hb => ?_⟩
    obtain ⟨a', ha', hab⟩ := hok b hb
    obtain rfl : a = a' := Except.ok.inj ha'
    exact ⟨a, ha', hab⟩
  have hboth : Mirrors S (pure a >>= fun _ => rest) (q >>= next) :=
    hvalue.bind fun _ b hb => hnext b hb
  rwa [pure_bind] at hboth

lemma Mirrors.map {f : α → γ} {g : β → δ} (h : Mirrors R p q)
    (hmap : ∀ a b, R a b → S (f a) (g b)) : Mirrors S (f <$> p) (g <$> q) := by
  rw [← bind_pure_comp, ← bind_pure_comp]
  exact h.bind fun a b hab => mirrors_pure (hmap a b hab)

lemma mirrors_mapM {f g : α → Pass β} {items : List α}
    (h : ∀ a ∈ items, Mirrors Eq (f a) (g a)) : Mirrors Eq (items.mapM f) (items.mapM g) := by
  induction items with
  | nil => simpa using mirrors_pure rfl
  | cons a items ih =>
    rw [List.mapM_cons, List.mapM_cons]
    refine (h a List.mem_cons_self).bind ?_
    rintro b _ rfl
    refine (ih fun c hc => h c (List.mem_cons_of_mem _ hc)).bind ?_
    rintro bs _ rfl
    exact mirrors_pure rfl

lemma mirrors_foldlM {f : α → γ → Pass α} {g : β → γ → Pass β} {items : List γ}
    (h : ∀ a b, R a b → ∀ c ∈ items, Mirrors R (f a c) (g b c)) {a : α} {b : β} (hab : R a b) :
    Mirrors R (items.foldlM f a) (items.foldlM g b) := by
  induction items generalizing a b with
  | nil => simpa using mirrors_pure hab
  | cons c items ih =>
    rw [List.foldlM_cons, List.foldlM_cons]
    exact (h a b hab c List.mem_cons_self).bind fun a' b' hab' =>
      ih (fun a b hab c hc => h a b hab c (List.mem_cons_of_mem _ hc)) hab'

lemma mapM_eq_pure {f : γ → Pass α} {g : γ → α} (h : ∀ c, f c = pure (g c)) {items : List γ} :
    items.mapM f = pure (items.map g) := by
  rw [funext h, List.mapM_pure]

lemma finished_of_settle {tried : Pass (Json × List Pointer)} {rest : List Issue → Pass Json}
    (h : (tried.settle rest).Finished) : tried.Finished := by
  intro hq
  refine h ?_
  rw [settle, hq, ← bind_pure_comp]
  exact outcome_bind_of_error hq _

/-- **A branch that is tried** is mirrored by one that leads to the same value. -/
lemma Mirrors.settle {tried tried' : Pass (Json × List Pointer)} {rest rest' : List Issue → Pass Json}
    {R : Json × List Pointer → Json × List Pointer → Prop} (h : Mirrors R tried tried')
    (hvalue : ∀ r r', R r r' → r.1 = r'.1) (hrest : tried'.issues.isEmpty = false →
      Mirrors Eq (rest tried'.issues) (rest' tried'.issues)) :
    Mirrors Eq (tried.settle rest) (tried'.settle rest') := by
  intro hfinished
  have htried := finished_of_settle hfinished
  obtain ⟨hcalls, hissues, herror, hok⟩ := h htried
  have hsilenced : Mirrors R tried.silenced tried'.silenced := fun _ => ⟨hcalls, rfl, herror, hok⟩
  revert hfinished
  rw [Pass.settle, Pass.settle]
  cases hq : tried'.outcome with
  | error halt =>
    rw [herror halt hq]
    exact h.map hvalue
  | ok r =>
    obtain ⟨a, ha, -⟩ := hok r hq
    rw [ha, hissues]
    refine hsilenced.bind fun r r' hr => ?_
    cases hempty : tried'.issues.isEmpty with
    | true => exact mirrors_pure (hvalue r r' hr)
    | false => exact hrest hempty

/-- A branch that is mirrored by doing nothing is taken, and leaves the value as it is. -/
lemma Mirrors.settle_idle {tried : Pass (Json × List Pointer)} {rest : List Issue → Pass Json}
    {R : Json × List Pointer → Json × List Pointer → Prop} {value : Json} {seen : List Pointer}
    (h : Mirrors R (pure (value, seen)) tried) (hvalue : ∀ r r', R r r' → r.1 = r'.1) :
    Mirrors Eq (pure value) (tried.settle rest) := by
  intro hfinished
  obtain ⟨-, hquiet, -⟩ := h (finished_of_settle hfinished)
  have hsettle : Mirrors Eq (Pass.settle (pure (value, seen)) rest) (tried.settle rest) := by
    refine h.settle hvalue fun hissues => ?_
    rw [← hquiet] at hissues
    exact absurd hissues (by simp [pure, done])
  exact hsettle hfinished

end Pass

namespace Plan

open Pass

/-! ## Parts of a visit -/

section Parts

variable {plan plain : Plan} {visit visit' : Visit} {node node' : PlanNode} {at_ : Position}
  {value : Json} {seen seen' : List Pointer}

/-- Results with one value, and with the same active nodes seen. -/
def SameSeen (plan : Plan) (r r' : Json × List Pointer) : Prop :=
  r.1 = r'.1 ∧ ∀ pointer, plan.isActive pointer = true → (pointer ∈ r.2 ↔ pointer ∈ r'.2)

/-- A relation between results that have one value.  It holds where nothing has been seen. -/
structure OfOneValue (R : Json × List Pointer → Json × List Pointer → Prop) : Prop where
  value : ∀ {r r'}, R r r' → r.1 = r'.1
  fresh : ∀ value, R (value, []) (value, [])

lemma ofOneValue_sameSeen : OfOneValue plan.SameSeen where
  value := fun h => h.1
  fresh := fun _ => ⟨rfl, fun _ _ => Iff.rfl⟩

/-- At a node, a visit mirrors another wherever what both have seen is related. -/
def MirrorsAt (R : Json × List Pointer → Json × List Pointer → Prop) (visit visit' : Visit)
    (pointer : Pointer) : Prop :=
  ∀ at_ value seen seen', R (value, seen) (value, seen') →
    Mirrors R (visit pointer at_ value seen) (visit' pointer at_ value seen')

section
variable {R : Json × List Pointer → Json × List Pointer → Prop} (hR : OfOneValue R)

include hR

lemma mirrors_visitChild {key : String} {child : Pointer} (h : MirrorsAt R visit visit' child) :
    Mirrors Eq (visitChild visit at_ key child value) (visitChild visit' at_ key child value) :=
  (h _ value [] [] (hR.fresh value)).map fun _ _ => hR.value

/-- Members and items go to nodes at which the visit is mirrored. -/
lemma mirrors_visitInside (hrules : node'.memberRules = node.memberRules)
    (hitems : node'.outline.itemNode? = node.outline.itemNode?)
    (hvisit : ∀ child ∈ node.insideNodes, MirrorsAt R visit visit' child) :
    Mirrors Eq (visitInside visit node at_ value) (visitInside visit' node' at_ value) := by
  cases value with
  | object members =>
    simp only [visitInside, hrules]
    refine (mirrors_foldlM (R := Eq) ?_ rfl).map fun _ _ => congrArg Json.object
    rintro members _ rfl rule hrule
    refine mirrors_mapM ?_
    rintro ⟨key, current⟩ _
    by_cases hkey : rule.1 key = true
    · simp only [hkey, if_true]
      exact (mirrors_visitChild hR (hvisit _ (mem_insideNodes_of_rule hrule))).map
        fun _ _ => congrArg (key, ·)
    · simp only [hkey, Bool.false_eq_true, if_false]
      exact mirrors_pure rfl
  | array items =>
    simp only [visitInside]
    refine (mirrors_mapM ?_).map fun _ _ => congrArg Json.array
    rintro ⟨item, index⟩ _
    simp only [hitems]
    cases hnode : node.outline.itemNode? index with
    | none => exact mirrors_pure rfl
    | some child => exact mirrors_visitChild hR (hvisit child (mem_insideNodes_of_item hnode))
  | _ => exact mirrors_pure rfl

lemma mirrors_visitEach {nodes : List Pointer} (hvisit : ∀ child ∈ nodes, MirrorsAt R visit visit' child)
    (hseen : R (value, seen) (value, seen')) :
    Mirrors R (visitEach visit at_ nodes value seen) (visitEach visit' at_ nodes value seen') := by
  refine mirrors_foldlM ?_ hseen
  rintro ⟨value, seen⟩ ⟨value', seen'⟩ hr child hchild
  obtain rfl : value = value' := hR.value hr
  exact hvisit child hchild at_ value seen seen' hr

end

/-- The visit that does nothing. -/
def idleVisit : Visit :=
  fun _ _ value seen => pure (value, seen)

/-- Branches of which none is active leave the value as it is. -/
lemma mirrors_tryBranches_idle {branches : List (Matcher × Pointer)}
    (hvisit : ∀ branch ∈ branches, MirrorsAt plan.SameSeen idleVisit visit' branch.2)
    (hseen : plan.SameSeen (value, seen) (value, seen')) :
    Mirrors Eq (pure value) (plain.tryBranches visit' at_ value seen' branches []) := by
  induction branches with
  | nil => exact mirrors_pure rfl
  | cons entry rest ih =>
    obtain ⟨matcher, branch⟩ := entry
    have hrest := ih fun branch hbranch => hvisit branch (List.mem_cons_of_mem _ hbranch)
    rw [tryBranches_cons]
    split
    · exact hrest
    split
    · exact mirrors_pure rfl
    · exact (hvisit (matcher, branch) List.mem_cons_self at_ value seen seen' hseen).settle_idle
        fun _ _ hr => hr.1

/-- Branches are tried alike, as taking one that is not active does what visiting it does. -/
lemma mirrors_tryBranches {branches : List (Matcher × Pointer)} (rejected : List Issue)
    (hactive : ∀ branch ∈ branches, plain.isActive branch.2 = true)
    (hvisit : ∀ branch ∈ branches, MirrorsAt plan.SameSeen visit visit' branch.2)
    (hidle : ∀ branch ∈ branches, plan.isActive branch.2 = false →
      MirrorsAt plan.SameSeen idleVisit visit' branch.2)
    (hseen : plan.SameSeen (value, seen) (value, seen')) :
    Mirrors Eq (plan.tryBranches visit at_ value seen branches rejected)
      (plain.tryBranches visit' at_ value seen' branches rejected) := by
  induction branches generalizing rejected with
  | nil => exact mirrors_refl _
  | cons entry rest ih =>
    obtain ⟨matcher, branch⟩ := entry
    have hrest := fun rejected => ih rejected
      (fun branch hbranch => hactive branch (List.mem_cons_of_mem _ hbranch))
      (fun branch hbranch => hvisit branch (List.mem_cons_of_mem _ hbranch))
      fun branch hbranch => hidle branch (List.mem_cons_of_mem _ hbranch)
    have hplain : (plain.node branch).active = true := hactive (matcher, branch) List.mem_cons_self
    rw [tryBranches_cons, tryBranches_cons, hplain]
    cases matcher.accepts at_.origin with
    | false => exact hrest rejected
    | true =>
      cases hbranch : (plan.node branch).active with
      | false =>
        have htried := hidle (matcher, branch) List.mem_cons_self hbranch at_ value seen seen' hseen
        simpa only [Bool.not_true, Bool.not_false, Bool.false_eq_true, if_false, if_true]
          using htried.settle_idle fun _ _ hr => hr.1
      | true =>
        have htried := hvisit (matcher, branch) List.mem_cons_self at_ value seen seen' hseen
        simpa only [Bool.not_true, Bool.false_eq_true, if_false]
          using htried.settle (fun _ _ hr => hr.1) fun _ => hrest (rejected ++ _)

end Parts

/-! ## The plain pass -/

/-- The matcher of a branch or condition; `otherwise` stands for those that cannot be built. -/
def matcherAt (build : MatcherBuilder) (document : Json) (otherwise : Pointer → Matcher)
    (pointer : Pointer) : Matcher :=
  match build (branchDocument document pointer) with
  | .ok matcher => matcher
  | .error _ => otherwise pointer

end Plan

/-- The node as an active one with all its matchers. -/
def PlanNode.complete (matcher : Pointer → Matcher) (node : PlanNode) : PlanNode :=
  { node with
    active := true
    branches := node.outline.branches.map fun branch => (matcher branch, branch)
    condition := node.outline.condition.map matcher }

namespace Plan

open Pass

/-- **The plain plan**: all nodes are active, and all branches and conditions have matchers. -/
def plain (build : MatcherBuilder) (otherwise : Pointer → Matcher) (plan : Plan) : Plan where
  document := plan.document
  nodes := plan.nodes.map (PlanNode.complete (matcherAt build plan.document otherwise))

section Compiled

variable {build : MatcherBuilder} {schema : Fragment} {options : Options} {plan : Plan}
  {otherwise : Pointer → Matcher} {pointer : Pointer} {at_ : Position} {value : Json}
  {seen seen' : List Pointer}

lemma node_plain (h : compile build schema options = .ok plan)
    (hpointer : pointer ∈ Outline.nodes schema.json) : (plan.plain build otherwise).node pointer
      = (plan.node pointer).complete (matcherAt build schema.json otherwise) := by
  obtain ⟨hmem, hcompiled⟩ := compiled_node h hpointer
  have hfound : plan.node? pointer = some (plan.node pointer) :=
    plan.pointer_node pointer ▸ node?_of_mem hmem
  have hcomplete : (plan.plain build otherwise).node? pointer
      = (plan.node? pointer).map (PlanNode.complete (matcherAt build plan.document otherwise)) :=
    List.find?_map ..
  rw [Plan.node, hcomplete, hfound, Option.map_some, Option.getD_some, (compile_ok h).1]

/-- A node that is not active has no transforms, and leads to none that is. -/
lemma idle_node (h : compile build schema options = .ok plan)
    (hpointer : pointer ∈ Outline.nodes schema.json) (hidle : plan.isActive pointer = false) :
    (plan.node pointer).chain = []
      ∧ ∀ child ∈ (plan.node pointer).outline.children, plan.isActive child = false := by
  have hnone : ∀ target, Graph.Leads (Outline.edges schema.json) pointer target →
      (plan.node target).chain = [] := by
    intro target hleads
    by_contra hchain
    have hactive := (active_iff h hpointer).2 ⟨target, hleads, hchain⟩
    exact absurd (hactive.symm.trans hidle) (by simp)
  refine ⟨hnone pointer .refl, fun child hchild => ?_⟩
  have hmem := mem_nodes_of_child h hpointer hchild
  rw [outline_node h hpointer] at hchild
  refine Bool.eq_false_iff.2 fun hactive => ?_
  obtain ⟨target, hleads, hchain⟩ := (active_iff h hmem).1 hactive
  exact hchain (hnone target (.head hchild hleads))

lemma visitInside_idleVisit (node : PlanNode) : visitInside idleVisit node at_ value = pure value := by
  have hchild : ∀ key child current, visitChild idleVisit at_ key child current = pure current :=
    fun _ _ _ => rfl
  cases value with
  | object members =>
    have hmembers : ∀ members (rule : (String → Bool) × Pointer),
        visitMembers idleVisit at_ rule.1 rule.2 members = pure members := by
      intro members rule
      refine (mapM_eq_pure (g := id) fun member => ?_).trans (by rw [List.map_id])
      obtain ⟨key, current⟩ := member
      cases hkey : rule.1 key <;> simp [hkey, hchild]
    simp only [visitInside, hmembers, List.foldlM_pure, List.foldl_fixed, pure_bind]
  | array items =>
    have hitems : visitItems idleVisit node at_ items = pure items := by
      refine (mapM_eq_pure (g := Prod.fst) fun entry => ?_).trans (by rw [List.zipIdx_map_fst])
      obtain ⟨item, index⟩ := entry
      cases hnode : node.outline.itemNode? index <;> simp [hnode, hchild]
    simp only [visitInside, hitems, pure_bind]
  | _ => rfl

lemma visitEach_idleVisit (at_ : Position) (nodes : List Pointer) :
    visitEach idleVisit at_ nodes value seen = pure (value, seen) := by
  simp [visitEach, idleVisit]

/-- What the plain plan makes of a node differs in the branches, the condition and the activity. -/
lemma plain_node (otherwise : Pointer → Matcher)
    (h : compile build schema options = .ok plan)
    (hpointer : pointer ∈ Outline.nodes schema.json) :
    let node := plan.node pointer
    let node' := (plan.plain build otherwise).node pointer
    node'.outline = node.outline ∧ node'.chain = node.chain ∧ node'.active = true
      ∧ node'.memberRules = node.memberRules
      ∧ node'.branches.map Prod.snd = node.outline.branches
      ∧ (plan.plain build otherwise).runChain node' = plan.runChain node := by
  intro node node'
  have hnode : node' = node.complete _ := node_plain h hpointer
  rw [hnode]
  refine ⟨rfl, rfl, rfl, rfl, ?_, rfl⟩
  exact (List.map_map ..).trans (List.map_id _)

/-- The branches have their matchers, or none of them is active. -/
lemma branches_plain (otherwise : Pointer → Matcher)
    (h : compile build schema options = .ok plan)
    (hpointer : pointer ∈ Outline.nodes schema.json) :
    (plan.node pointer).branches = ((plan.plain build otherwise).node pointer).branches
      ∨ (plan.node pointer).branches = []
        ∧ ∀ branch ∈ (plan.node pointer).outline.branches, plan.isActive branch = false := by
  have hpointers := branches_node h hpointer
  split at hpointers
  · refine Or.inl ?_
    rw [node_plain h hpointer, PlanNode.complete, ← hpointers, List.map_map]
    refine (List.map_id _).symm.trans (List.map_congr_left fun branch hbranch => ?_)
    have hmatcher := built_of_mem_branches h hpointer hbranch
    simp only [Function.comp_apply, matcherAt, hmatcher, id_eq]
  · rename_i hnone
    exact Or.inr ⟨List.map_eq_nil_iff.1 hpointers, by simpa [isActive] using hnone⟩

/-- The condition selects the same node, or one that is not active. -/
lemma selected?_plain (otherwise : Pointer → Matcher)
    (h : compile build schema options = .ok plan)
    (hpointer : pointer ∈ Outline.nodes schema.json) (origin : Json) :
    selected? (plan.node pointer) origin
        = selected? ((plan.plain build otherwise).node pointer) origin
      ∨ selected? (plan.node pointer) origin = none
        ∧ ∀ child, selected? ((plan.plain build otherwise).node pointer) origin = some child →
          plan.isActive child = false := by
  obtain ⟨hsome, hbuilt⟩ := condition_node h hpointer
  rw [node_plain h hpointer]
  cases hcondition : (plan.node pointer).condition with
  | some matcher =>
    obtain ⟨place, hplace, hmatcher⟩ := hbuilt matcher hcondition
    refine Or.inl ?_
    simp only [selected?, PlanNode.complete, hcondition, hplace, Option.map_some, matcherAt,
      hmatcher]
  | none =>
    rw [hcondition] at hsome
    refine Or.inr ⟨by rw [selected?, hcondition]; rfl, fun child hchild => ?_⟩
    have hfollows := mem_followers_of_selected? hchild
    obtain ⟨matcher, hmatcher, -⟩ := Option.bind_eq_some_iff.1 hchild
    obtain ⟨place, hplace, -⟩ := Option.map_eq_some_iff.1 hmatcher
    rw [hplace] at hsome
    have hnone := Bool.eq_false_iff.1 hsome.symm
    refine Bool.eq_false_iff.2 fun hactive => hnone ?_
    rw [Option.isSome_some, Bool.true_and]
    exact List.any_eq_true.2 ⟨child, hfollows, hactive⟩

/-- **Idle visits.**  In the plain pass, the visit of a node that is not active does nothing. -/
lemma mirrors_idleVisit (h : compile build schema options = .ok plan) (steps : ℕ)
    (hpointer : pointer ∈ Outline.nodes schema.json) (hidle : plan.isActive pointer = false) :
    MirrorsAt plan.SameSeen idleVisit ((plan.plain build otherwise).visit steps) pointer := by
  induction steps generalizing pointer with
  | zero => exact fun at_ value seen seen' _ hfinished => absurd rfl hfinished
  | succ steps ih =>
    intro at_ value seen seen' hseen
    obtain ⟨houtline, hchain, hactive, hrules, hbranches, hrun⟩ :=
      plain_node otherwise h hpointer
    obtain ⟨hquiet, hchildren⟩ := idle_node h hpointer hidle
    have hvisit : ∀ child ∈ (plan.node pointer).outline.children,
        MirrorsAt plan.SameSeen idleVisit ((plan.plain build otherwise).visit steps) child :=
      fun child hchild => ih (mem_nodes_of_child h hpointer hchild) (hchildren child hchild)
    simp only [visit, hactive, Bool.not_true, Bool.false_or, decide_eq_true_eq]
    split
    · exact mirrors_pure hseen
    -- the plain pass has seen the node now, but the two need to agree on active nodes only
    have hseen' : plan.SameSeen (value, seen) (value, pointer :: seen') := by
      refine ⟨rfl, fun other hother => (hseen.2 other hother).trans ?_⟩
      have hne : other ≠ pointer := by
        rintro rfl
        exact absurd (hother.symm.trans hidle) (by simp)
      simp [hne]
    refine Mirrors.skip (R := Eq) (a := value) ?_ ?_
    · rw [← visitInside_idleVisit (plan.node pointer)]
      exact mirrors_visitInside ofOneValue_sameSeen hrules (by rw [houtline]) fun child hchild =>
        hvisit child (insideNodes_subset_children h hpointer hchild)
    rintro _ rfl
    refine Mirrors.skip (R := plan.SameSeen) (a := (value, seen)) ?_ ?_
    · rw [← visitEach_idleVisit at_ (plan.node pointer).outline.conjuncts, ← houtline]
      exact mirrors_visitEach ofOneValue_sameSeen (fun child hchild =>
        hvisit child (conjuncts_subset_children (houtline ▸ hchild))) hseen'
    rintro ⟨_, seen₁⟩ ⟨rfl, hsame⟩
    have hseen₁ : plan.SameSeen (value, seen) (value, seen₁) := ⟨rfl, hsame⟩
    refine Mirrors.skip (R := Eq) (a := value) ?_ ?_
    · refine mirrors_tryBranches_idle (fun branch hbranch => hvisit branch.2 ?_) hseen₁
      exact Outline.branches_subset_children _ (hbranches ▸ List.mem_map_of_mem hbranch)
    rintro _ rfl
    refine Mirrors.skip (R := plan.SameSeen) (a := (value, seen)) ?_ ?_
    · rw [← visitEach_idleVisit at_]
      refine mirrors_visitEach ofOneValue_sameSeen (fun child hchild => hvisit child ?_) hseen₁
      have hfollows := mem_followers_of_selected? (Option.mem_toList.1 hchild)
      exact Outline.followers_subset_children _ (houtline ▸ hfollows)
    rintro ⟨_, seen₂⟩ ⟨rfl, hseen₂⟩
    have hnothing : plan.runChain (plan.node pointer) at_ value = pure value := by
      rw [runChain, hquiet]
      rfl
    simp only [hrun, hnothing, pure_bind]
    exact mirrors_pure ⟨rfl, hseen₂⟩

section Stages

variable {visit : Visit} {steps : ℕ} (h : compile build schema options = .ok plan)
  (hpointer : pointer ∈ Outline.nodes schema.json)
  (hvisit : ∀ child ∈ (plan.node pointer).outline.children,
    MirrorsAt plan.SameSeen visit ((plan.plain build otherwise).visit steps) child)
  (hseen : plan.SameSeen (value, seen) (value, seen'))

include h hpointer hvisit hseen

lemma mirrors_branches : Mirrors Eq
    (plan.tryBranches visit at_ value seen (plan.node pointer).branches [])
    ((plan.plain build otherwise).tryBranches ((plan.plain build otherwise).visit steps) at_ value
      seen' ((plan.plain build otherwise).node pointer).branches []) := by
  obtain ⟨-, -, -, -, hbranches, -⟩ := plain_node otherwise h hpointer
  have hchild : ∀ branch ∈ ((plan.plain build otherwise).node pointer).branches,
      branch.2 ∈ (plan.node pointer).outline.branches := fun branch hbranch =>
    hbranches ▸ List.mem_map_of_mem hbranch
  have hmem : ∀ branch ∈ ((plan.plain build otherwise).node pointer).branches,
      branch.2 ∈ (plan.node pointer).outline.children := fun branch hbranch =>
    Outline.branches_subset_children _ (hchild branch hbranch)
  have hidle : ∀ branch ∈ ((plan.plain build otherwise).node pointer).branches,
      plan.isActive branch.2 = false →
      MirrorsAt plan.SameSeen idleVisit ((plan.plain build otherwise).visit steps) branch.2 :=
    fun branch hbranch hnot =>
      mirrors_idleVisit h steps (mem_nodes_of_child h hpointer (hmem branch hbranch)) hnot
  rcases branches_plain otherwise h hpointer with heq | ⟨hnil, hnone⟩
  · rw [heq]
    refine mirrors_tryBranches [] (fun branch hbranch => ?_)
      (fun branch hbranch => hvisit _ (hmem branch hbranch)) hidle hseen
    obtain ⟨-, -, hplain, -⟩ := plain_node otherwise h
      (mem_nodes_of_child h hpointer (hmem branch hbranch))
    exact hplain
  · rw [hnil]
    exact mirrors_tryBranches_idle (fun branch hbranch =>
      hidle branch hbranch (hnone branch.2 (hchild branch hbranch))) hseen

lemma mirrors_selected : Mirrors plan.SameSeen
    (visitEach visit at_ (selected? (plan.node pointer) at_.origin).toList value seen)
    (visitEach ((plan.plain build otherwise).visit steps) at_
      (selected? ((plan.plain build otherwise).node pointer) at_.origin).toList value seen') := by
  obtain ⟨houtline, -⟩ := plain_node otherwise h hpointer
  have hmem : ∀ child ∈ (selected? ((plan.plain build otherwise).node pointer) at_.origin).toList,
      child ∈ (plan.node pointer).outline.children := by
    intro child hchild
    have hfollows := mem_followers_of_selected? (Option.mem_toList.1 hchild)
    exact Outline.followers_subset_children _ (houtline ▸ hfollows)
  rcases selected?_plain otherwise h hpointer at_.origin with heq | ⟨hnone, hidle⟩
  · rw [heq]
    exact mirrors_visitEach ofOneValue_sameSeen
      (fun child hchild => hvisit child (hmem child hchild)) hseen
  · rw [hnone]
    show Mirrors plan.SameSeen (pure (value, seen)) _
    rw [← visitEach_idleVisit at_]
    exact mirrors_visitEach ofOneValue_sameSeen (fun child hchild => mirrors_idleVisit h steps
      (mem_nodes_of_child h hpointer (hmem child hchild))
      (hidle child (Option.mem_toList.1 hchild))) hseen

end Stages

/-- **Visits.**  A visit does what it does in the plain pass. -/
lemma mirrors_visit (otherwise : Pointer → Matcher)
    (h : compile build schema options = .ok plan) (steps : ℕ) {more : ℕ}
    (hmore : steps ≤ more) (hpointer : pointer ∈ Outline.nodes schema.json) :
    MirrorsAt plan.SameSeen (plan.visit more) ((plan.plain build otherwise).visit steps) pointer := by
  induction steps generalizing pointer more with
  | zero => exact fun at_ value seen seen' _ hfinished => absurd rfl hfinished
  | succ steps ih =>
    obtain ⟨more, rfl⟩ : ∃ fewer, more = fewer + 1 := ⟨more - 1, by omega⟩
    intro at_ value seen seen' hseen
    cases hactive : plan.isActive pointer with
    | false =>
      -- one pass skips the node; the other visits it, and does nothing there
      have hskip : plan.visit (more + 1) pointer at_ value seen = pure (value, seen) := by
        have hidle : (plan.node pointer).active = false := hactive
        simp only [visit, hidle, Bool.not_false, Bool.true_or, if_true]
        rfl
      rw [hskip]
      exact mirrors_idleVisit h (steps + 1) hpointer hactive at_ value seen seen' hseen
    | true =>
      have hactive' : (plan.node pointer).active = true := hactive
      obtain ⟨houtline, hchain, hplain, hrules, hbranches, hrun⟩ :=
        plain_node otherwise h hpointer
      have hvisit : ∀ child ∈ (plan.node pointer).outline.children,
          MirrorsAt plan.SameSeen (plan.visit more) ((plan.plain build otherwise).visit steps) child :=
        fun child hchild => ih (by omega) (mem_nodes_of_child h hpointer hchild)
      have hnew : pointer ∈ seen ↔ pointer ∈ seen' := hseen.2 pointer hactive
      simp only [visit, hactive', hplain, Bool.not_true, Bool.false_or, decide_eq_true_eq, hnew]
      split
      · exact mirrors_pure hseen
      have hseen' : plan.SameSeen (value, pointer :: seen) (value, pointer :: seen') :=
        ⟨rfl, fun other hother => by simp [hseen.2 other hother]⟩
      -- stage by stage from here, each of them on what the stage before has left alike
      refine Mirrors.bind (R := Eq) ?_ ?_
      · exact mirrors_visitInside ofOneValue_sameSeen hrules (by rw [houtline]) fun child hchild =>
          hvisit child (insideNodes_subset_children h hpointer hchild)
      rintro value _ rfl
      refine Mirrors.bind (R := plan.SameSeen) ?_ ?_
      · rw [houtline]
        exact mirrors_visitEach ofOneValue_sameSeen (fun child hchild =>
          hvisit child (conjuncts_subset_children hchild)) ⟨rfl, hseen'.2⟩
      rintro ⟨value, seen₁⟩ ⟨_, seen₁'⟩ ⟨rfl, hseen₁⟩
      refine Mirrors.bind (R := Eq) ?_ ?_
      · exact mirrors_branches h hpointer hvisit ⟨rfl, hseen₁⟩
      rintro value _ rfl
      refine Mirrors.bind (R := plan.SameSeen) ?_ ?_
      · exact mirrors_selected h hpointer hvisit ⟨rfl, hseen₁⟩
      rintro ⟨value, seen₂⟩ ⟨_, seen₂'⟩ ⟨rfl, hseen₂⟩
      rw [hrun]
      refine Mirrors.bind (R := Eq) (mirrors_refl _) ?_
      rintro value _ rfl
      exact mirrors_pure ⟨rfl, hseen₂⟩

/-- **Skipping what is not active changes nothing.**  Where the plain pass ends, the pass makes the same
calls, reports the same issues in the same order, and comes to the same value or the same failure. -/
theorem run_eq_run_plain (h : compile build schema options = .ok plan)
    (otherwise : Pointer → Matcher) {steps : ℕ} {value : Json}
    (hends : ((plan.plain build otherwise).run steps value).Finished) :
    ∀ more, steps ≤ more →
      plan.run more value = (plan.plain build otherwise).run steps value := by
  intro more hmore
  have hvisit := mirrors_visit otherwise h steps hmore
    (Outline.mem_nodes_iff.2 .refl) (.root value) value [] [] ⟨rfl, fun _ _ => Iff.rfl⟩
  have hrun : Mirrors Eq (plan.run more value) ((plan.plain build otherwise).run steps value) :=
    hvisit.map fun _ _ hr => hr.1
  exact hrun.eq hends

end Compiled

/-- A schema in which only one branch and one member carry transforms. -/
def sparseSchema : Fragment where
  keywords :=
    [("anyOf", .array [
        .object [("type", .string "string")],
        .object [("required", .array [.string "n"]), ("transform", .array [.string "keep"])]]),
      ("if", .object [("minProperties", .int 1)]),
      ("properties", .object [("m", .object [("oneOf", .array [.bool true])]),
        ("n", .object [("transform", .array [.string "set"])])]),
      ("then", .object [("properties", .object [("m", .object [])])])]

/-- Options with the transforms of the schema. -/
def sparseOptions : Options where
  transforms := Table.ofPairs [("keep", Transform.ofFunction .ok),
    ("set", Transform.ofFunction fun _ => .ok (.int 2))]

/-- The matcher of the branches that do not have one. -/
def permissive : Matcher where
  document := .ofJson .draft7 (.bool true)

/-- With eight nodes, of which three are active, the pass does what it does in the plain plan. -/
theorem sparseSchema_runs_plain : ∃ plan,
    compile (Matcher.build {} [] {}) sparseSchema sparseOptions = .ok plan
      ∧ ((plan.plain (Matcher.build {} [] {}) fun _ => permissive).run 8
        (.object [("m", .int 0), ("n", .int 1)])).Finished
      ∧ plan.run 9 (.object [("m", .int 0), ("n", .int 1)])
        = (plan.plain (Matcher.build {} [] {}) fun _ => permissive).run 8
          (.object [("m", .int 0), ("n", .int 1)]) := by
  have hfacts : (match compile (Matcher.build {} [] {}) sparseSchema sparseOptions with
      | .ok plan => decide (((plan.plain (Matcher.build {} [] {}) fun _ => permissive).run 8
          (.object [("m", .int 0), ("n", .int 1)])).outcome ≠ .error .exhausted)
      | .error _ => false) = true := by
    decide +kernel
  split at hfacts
  · rename_i plan h
    have hends := of_decide_eq_true hfacts
    exact ⟨plan, h, hends, run_eq_run_plain h _ hends 9 (by decide)⟩
  · simp at hfacts

end Plan

end SchemaAlgebra
