import SchemaAlgebra.Proofs.Activity
import SchemaAlgebra.Proofs.Serialized

/-!
# Validating serialized instances

A validator of serialized instances tries the instances first.  What is an instance it leaves alone, and
calls nothing; of what is of the kind it constructs an instance; and anything else it refuses
(`Fragment.serializedInstanceOf_validates`).

Validation may be repeated.  An instance that is an object is left alone by a second validation, but the
first member of the union admits no others, so an instance of another kind is only left alone if it is a
form that stands for itself (`Fragment.serializedInstanceOf_validates_again`).

* `Fragment.Rewrites`, `Fragment.Rewrites.apply_eq` — the plan of the schema, and its run.
* `Fragment.Validates` — what the matchers of a validator of the schema decide.
-/

namespace SchemaAlgebra

/-! ## Its run -/

/-- A node that applies to nothing but the value itself, and branches it may. -/
structure PlanNode.IsFlat (node : PlanNode) : Prop where
  rules : node.memberRules = []
  items : node.outline.items = .none
  conjuncts : node.outline.conjuncts = []
  condition : node.condition = none

namespace Plan

variable {plan : Plan} {visit : Visit} {node : PlanNode} {at_ : Position} {value : Json}
  {seen : List Pointer}

lemma visitInside_of_flat (h : node.IsFlat) : visitInside visit node at_ value = pure value := by
  cases value with
  | object members =>
    rw [visitInside, h.rules]
    rfl
  | array items =>
    have hitems : visitItems visit node at_ items = pure items := by
      refine (Pass.mapM_eq_pure (g := Prod.fst) fun entry => ?_).trans (by rw [List.zipIdx_map_fst])
      simp [Outline.itemNode?, h.items]
    rw [visitInside, hitems]
    rfl
  | _ => rfl

/-- A visit of a flat node is that of its branches and its chain. -/
lemma visitNode_of_flat (h : node.IsFlat) : plan.visitNode visit node at_ value seen = do
    let value ← plan.tryBranches visit at_ value seen node.branches []
    return (← plan.runChain node at_ value, seen) := by
  have heach : visitEach visit at_ [] value seen = pure (value, seen) := rfl
  have hselected : selected? node at_.origin = none := by
    rw [selected?, h.condition]
    rfl
  rw [visitNode, visitInside_of_flat h, h.conjuncts, hselected, pure_bind, heach, pure_bind]
  rfl

lemma runChain_of_nil (h : node.chain = []) : plan.runChain node at_ value = pure value := by
  rw [runChain, h]
  rfl

end Plan

namespace Fragment

open Plan

variable {f : Fragment} {name : String} {kind : Kind} {run transform : Transform}
  {options : MatcherOptions} {settings : Options} {C : Class} {extensions : List Extension}
  {registry : Registry} {plan : Plan}

/-- What a plan of the schema consists of: the matchers of both members, and the transform. -/
structure Rewrites (plan : Plan) (name : String) (transform : Transform) (live form : Matcher) :
    Prop where
  flat : ∀ pointer ∈ ["", "/anyOf/1"], (plan.node pointer).IsFlat
  idle : (plan.node "/anyOf/0").active = false
  active : ∀ pointer ∈ ["", "/anyOf/1"], (plan.node pointer).active = true
  chain : (plan.node "").chain = []
  branches : (plan.node "").branches = [(live, "/anyOf/0"), (form, "/anyOf/1")]
  chain_form : (plan.node "/anyOf/1").chain = [(name, transform)]
  branches_form : (plan.node "/anyOf/1").branches = []

lemma isFlat_of_outline {build : MatcherBuilder} (hplan : compile build f settings = .ok plan)
    {pointer : Pointer} (hpointer : pointer ∈ Outline.nodes f.json) {branches : List Pointer}
    (h : (plan.node pointer).outline = { pointer := pointer, branches := branches }) :
    (plan.node pointer).IsFlat := by
  have hpatterns := (compiled_node hplan hpointer).2.patterns
  have hcondition := (condition_node hplan hpointer).1
  rw [patternMatchers, h] at hpatterns
  rw [h] at hcondition
  refine ⟨?_, by rw [h], by rw [h]; rfl, by simpa using hcondition⟩
  rw [PlanNode.memberRules, h, ← Except.ok.inj hpatterns]
  rfl

/-- A compiled plan of the schema is of this sort. -/
lemma IsSerialized.rewrites (h : f.IsSerialized name kind run)
    (hplan : compile (Matcher.build settings.matcher extensions registry) f settings = .ok plan)
    (htransform : transform? f settings "/anyOf/1" name = some transform) :
    ∃ live form, Rewrites plan name transform live form
      ∧ Matcher.build settings.matcher extensions registry (.object (instanceKeywords name)) = .ok live
      ∧ Matcher.build settings.matcher extensions registry (.object (formKeywords name kind))
        = .ok form := by
  have hjson := h.json_eq
  have hroot : "" ∈ Outline.nodes f.json := by rw [hjson, Outline.mem_nodes_either]; simp
  have hlive : "/anyOf/0" ∈ Outline.nodes f.json := by rw [hjson, Outline.mem_nodes_either]; simp
  have hform : "/anyOf/1" ∈ Outline.nodes f.json := by rw [hjson, Outline.mem_nodes_either]; simp
  have hreadRoot : (plan.node "").outline = { pointer := "", branches := ["/anyOf/0", "/anyOf/1"] } := by
    rw [outline_node hplan hroot, hjson, Outline.read_either]
  have hreadLive : (plan.node "/anyOf/0").outline = { pointer := "/anyOf/0" } := by
    rw [outline_node hplan hlive, hjson, Outline.read_instance]
  have hreadForm : (plan.node "/anyOf/1").outline = { pointer := "/anyOf/1" } := by
    rw [outline_node hplan hform, hjson, Outline.read_form]
  have hchain : ∀ {pointer chain}, pointer ∈ Outline.nodes f.json →
      chainAt f settings f.json pointer = .ok chain → (plan.node pointer).chain = chain :=
    fun hpointer hchain => Except.ok.inj ((compiled_node hplan hpointer).2.chain.symm.trans hchain)
  have hchainForm := hchain hform (h.chainAt_form htransform)
  have hedge : "/anyOf/1" ∈ Outline.edges f.json "" := by
    rw [hjson, Outline.edges_either]
    decide
  have hactive : ∀ pointer ∈ ["", "/anyOf/1"], (plan.node pointer).active = true := by
    refine List.forall_mem_cons.2 ⟨?_, List.forall_mem_singleton.2 ?_⟩
    · exact (active_iff hplan hroot).2 ⟨"/anyOf/1", .single hedge, by simp [hchainForm]⟩
    · exact (active_iff hplan hform).2 ⟨"/anyOf/1", .refl, by simp [hchainForm]⟩
  -- the branch of instances has no transforms, and no edges to nodes that could have some
  have hidle : (plan.node "/anyOf/0").active = false := by
    refine Bool.eq_false_iff.2 fun hactive => ?_
    obtain ⟨target, hleads, hne⟩ := (active_iff hplan hlive).1 hactive
    rcases hleads.cases_head with rfl | ⟨next, hnext, -⟩
    · exact hne (hchain hlive (h.chainAt_other (Or.inr rfl)))
    · have hnext : next ∈ Outline.edges f.json "/anyOf/0" := hnext
      rw [hjson, Outline.edges, Outline.read_instance] at hnext
      exact absurd hnext List.not_mem_nil
  have hbranches := branches_node hplan hroot
  have hbranchesForm := branches_node hplan hform
  rw [hreadForm] at hbranchesForm
  rw [hreadRoot, List.any_cons, List.any_cons, hactive "/anyOf/1" (by decide), Bool.true_or,
    Bool.or_true, if_pos rfl] at hbranches
  obtain ⟨⟨live, _⟩, rest, hrest, rfl, hsecond⟩ := List.map_eq_cons_iff.1 hbranches
  obtain ⟨⟨form, _⟩, rest, rfl, rfl, hnone⟩ := List.map_eq_cons_iff.1 hsecond
  obtain rfl := List.map_eq_nil_iff.1 hnone
  have hbuilt : ∀ branch ∈ (plan.node "").branches,
      Matcher.build settings.matcher extensions registry (branchDocument f.json branch.2)
        = .ok branch.1 := fun branch hbranch => built_of_mem_branches hplan hroot hbranch
  rw [hrest] at hbuilt
  refine ⟨live, form, ⟨?_, hidle, hactive, hchain hroot (h.chainAt_other (Or.inl rfl)), hrest,
    hchainForm, List.map_eq_nil_iff.1 hbranchesForm⟩, ?_, ?_⟩
  · exact List.forall_mem_cons.2 ⟨isFlat_of_outline hplan hroot hreadRoot,
      List.forall_mem_singleton.2 (isFlat_of_outline hplan hform hreadForm)⟩
  · rw [← @branchDocument_instance name kind, ← hjson]
    exact hbuilt (live, "/anyOf/0") (by simp)
  · rw [← branchDocument_form, ← hjson]
    exact hbuilt (form, "/anyOf/1") (by simp)

/-- No node of a plan is closed if no schema that has one is. -/
lemma closed_node_of_read {build : MatcherBuilder} (hplan : compile build f settings = .ok plan)
    (h : ∀ pointer ∈ Outline.nodes f.json, (Outline.read f.json pointer).closed = false)
    (pointer : Pointer) : (plan.node pointer).outline.closed = false := by
  rcases plan.node_mem_or_eq pointer with ⟨hmem, -⟩ | hnode
  · obtain ⟨place, hplace, hcompiled⟩ := (compile_ok hplan).2.2 _ hmem
    rw [hcompiled.outline]
    exact h place hplace
  · rw [hnode]

/-- None of its schemas is closed. -/
lemma IsSerialized.closed_node {build : MatcherBuilder} (h : f.IsSerialized name kind run)
    (hplan : compile build f settings = .ok plan) (pointer : Pointer) :
    (plan.node pointer).outline.closed = false := by
  refine closed_node_of_read hplan (fun place hplace => ?_) pointer
  rw [h.json_eq] at hplace ⊢
  rcases Outline.mem_nodes_either.1 hplace with rfl | rfl | rfl
  · rw [Outline.read_either]
  · rw [Outline.read_instance]
  · rw [Outline.read_form]

variable {live form : Matcher} {value : Json}

namespace Rewrites

variable (h : Rewrites plan name transform live form)

include h

/-- A run tries the members in turn. -/
lemma run_eq (steps : ℕ) : plan.run (steps + 1) value = plan.tryBranches (plan.visit steps) (.root value)
    value [""] [(live, "/anyOf/0"), (form, "/anyOf/1")] [] := by
  have hvisit : plan.visit (steps + 1) "" (.root value) value []
      = plan.visitNode (plan.visit steps) (plan.node "") (.root value) value [""] := by
    rw [visit, h.active "" (by decide)]
    rfl
  rw [Plan.run, hvisit, visitNode_of_flat (h.flat "" (by decide)), h.branches]
  have hchain : ∀ at_ value, plan.runChain (plan.node "") at_ value = pure value :=
    fun at_ value => runChain_of_nil h.chain
  simp only [hchain, pure_bind, map_bind, map_pure, bind_pure]

lemma apply_eq : plan.apply value = plan.tryBranches (plan.visit 4095) (.root value) value [""]
    [(live, "/anyOf/0"), (form, "/anyOf/1")] [] :=
  h.run_eq 4095

/-- A visit of the second member runs its transform, within any budget. -/
lemma visit_form (steps : ℕ) : plan.visit (steps + 1) "/anyOf/1" (.root value) value [""]
    = (fun result => (result, ["/anyOf/1", ""]))
      <$> plan.runChain (plan.node "/anyOf/1") (.root value) value := by
  have hnode : plan.visit (steps + 1) "/anyOf/1" (.root value) value [""]
      = plan.visitNode (plan.visit steps) (plan.node "/anyOf/1") (.root value) value
        ["/anyOf/1", ""] := by
    rw [visit, h.active "/anyOf/1" (by decide)]
    rfl
  rw [hnode, visitNode_of_flat (h.flat "/anyOf/1" (by decide)), h.branches_form, map_eq_pure_bind]
  rfl

/-- Two visits inside one another are all that a run takes. -/
lemma run_eq_apply {limit : ℕ} (hlimit : 2 ≤ limit) : plan.run limit value = plan.apply value := by
  obtain ⟨steps, rfl⟩ := Nat.exists_eq_add_of_le' hlimit
  rw [h.run_eq (steps + 1), h.apply_eq]
  simp only [tryBranches, h.idle, h.visit_form, Bool.not_false, if_true]

/-- What the first member accepts is left as it is. -/
lemma apply_of_instance (hlive : live.accepts value = true) : plan.apply value = pure value := by
  rw [h.apply_eq, tryBranches, show (Position.root value).origin = value from rfl, hlive, h.idle]
  rfl

/-- What neither accepts is left as it is. -/
lemma apply_of_neither (hlive : live.accepts value = false) (hform : form.accepts value = false) :
    plan.apply value = pure value := by
  rw [h.apply_eq, tryBranches, tryBranches, show (Position.root value).origin = value from rfl, hlive,
    hform]
  rfl

/-- What only the second accepts is rewritten, if the transform reports nothing. -/
lemma apply_of_form (hlive : live.accepts value = false) (hform : form.accepts value = true)
    (hquiet : (plan.runChain (plan.node "/anyOf/1") (.root value) value).issues = []) :
    plan.apply value = plan.runChain (plan.node "/anyOf/1") (.root value) value := by
  rw [h.apply_eq, tryBranches, tryBranches, show (Position.root value).origin = value from rfl, hlive,
    hform, h.active "/anyOf/1" (by decide), h.visit_form, map_eq_pure_bind]
  revert hquiet
  generalize plan.runChain (plan.node "/anyOf/1") (.root value) value = p
  obtain ⟨calls, issues, outcome⟩ := p
  rintro (rfl : issues = [])
  cases outcome with
  | error halt => rfl
  | ok result => simp [bind, Pass.andThen, pure, Pass.done]

end Rewrites

end Fragment

/-! ## Validations -/

namespace Plan

variable {plan : Plan}

/-- Nothing is dropped where no schema is closed. -/
lemma pruneAt_eq_self_of_open (h : ∀ pointer, (plan.node pointer).outline.closed = false)
    (entered : List Pointer) (value : Json) : plan.pruneAt entered value = value := by
  induction hdepth : value.depth using Nat.strongRecOn generalizing value entered with
  | ind depth ih =>
    subst hdepth
    cases value with
    | object members =>
      rw [pruneAt, Json.object.injEq, pruneMembers_eq_self_iff]
      refine fun member hmember => ⟨List.all_eq_true.2 fun node hnode => ?_, ih _ ?_ _ _ rfl⟩
      · obtain ⟨pointer, -, rfl⟩ := List.mem_map.1 hnode
        rw [h pointer]
        rfl
      · exact Nat.lt_succ_of_le (Json.depth_le_of_mem_members hmember)
    | array items =>
      rw [pruneAt, Json.array.injEq, pruneItems_eq_self_iff]
      refine fun index item hitem => ih _ ?_ _ _ rfl
      exact Nat.lt_succ_of_le (Json.depth_le_of_mem_items (List.mem_of_getElem? hitem))
    | _ => simp [pruneAt]

end Plan

namespace Validator

/-- The calls of transforms that a validation makes within a limit. -/
def callsWithin (validator : Validator) (limit : ℕ) (value : Json) : List Call :=
  (validator.plan.run limit (validator.prepare value)).calls

/-- The calls of transforms that a validation makes. -/
def calls (validator : Validator) (value : Json) : List Call :=
  validator.callsWithin Plan.nestingLimit value

lemma calls_eq (validator : Validator) (value : Json) :
    validator.calls value = (validator.plan.apply (validator.prepare value)).calls := rfl

lemma validate_eq (validator : Validator) (value : Json) : validator.validate value
    = match (validator.plan.apply (validator.prepare value)).outcome with
      | .error halt => .error (.ofHalt halt)
      | .ok data => .ok ⟨report validator.options (validator.structuralIssues (validator.prepare value)
          ++ (validator.plan.apply (validator.prepare value)).issues), data⟩ := rfl

/-- A validation does the same within a limit if the run does. -/
lemma within_eq_of_run {validator : Validator} {limit : ℕ} {value : Json}
    (h : validator.plan.run limit (validator.prepare value) = validator.plan.apply (validator.prepare value)) :
    validator.validateWithin limit value = validator.validate value
      ∧ validator.callsWithin limit value = validator.calls value := by
  rw [validateWithin, callsWithin, h]
  exact ⟨rfl, rfl⟩

lemma report_eq_nil {options : MatcherOptions} {issues : List Issue} :
    report options issues = [] ↔ issues = [] := by
  cases issues with
  | nil => simp [report]
  | cons issue rest => cases h : options.reportsAll <;> simp [report, h]

lemma report_nil (options : MatcherOptions) : report options ([] ++ []) = [] :=
  report_eq_nil.2 rfl

lemma structuralIssues_eq_nil_iff {validator : Validator} {value : Json} :
    validator.structuralIssues value = [] ↔ validator.matcher.accepts value = true := by
  rw [structuralIssues, List.map_eq_nil_iff, Matcher.accepts, List.isEmpty_iff]

end Validator

namespace Fragment

open Plan

variable {f : Fragment} {name : String} {kind : Kind} {run transform : Transform}
  {options : Option Options} {C : Class} {validator : Validator} {value : Json}

/-- A matcher decides by its document, if that announces no dialect. -/
lemma accepts_of_build {settings : MatcherOptions} {extensions : List Extension} {registry : Registry}
    {keywords : Entries Json} {m : Matcher}
    (h : Matcher.build settings extensions registry (.object keywords) = .ok m)
    (hannounced : Entries.erase "$schema" keywords = keywords) (value : Json) :
    m.registry = registry ∧ ∃ steps, m.accepts value = true
      ↔ m.Passes (steps + 2) m.document.scope (.object keywords) value := by
  obtain ⟨rfl, -⟩ := Plan.build_eq_ok_iff.1 h
  have hroot : (Document.ofJson settings.effectiveDraft (.object keywords)).root = .object keywords :=
    congrArg Json.object hannounced
  obtain ⟨steps, hsteps⟩ : ∃ steps, ((Json.object keywords).positions + 1) * (value.depth + 2)
      = steps + 2 := by
    refine ⟨((Json.object keywords).positions + 1) * (value.depth + 2) - 2, ?_⟩
    have := Nat.mul_le_mul (Nat.le_add_left 1 (Json.object keywords).positions)
      (Nat.le_add_left 2 value.depth)
    omega
  refine ⟨rfl, steps, ?_⟩
  rw [Matcher.accepts, Matcher.violations, Matcher.violationsOf, List.isEmpty_iff, Matcher.budget]
  dsimp only
  rw [hroot, hsteps]
  rfl

/-- A validator of the schema: its verdict, and that of the matchers of the members. -/
structure Validates (validator : Validator) (name : String) (kind : Kind) (C : Class)
    (transform : Transform) (live form : Matcher) : Prop where
  accepts_iff : ∀ value, validator.matcher.accepts value = true
    ↔ (value.isObject = true ∧ C.isInstance value = true) ∨ Kind.of value = kind
  live_iff : ∀ value, live.accepts value = true ↔ value.isObject = true ∧ C.isInstance value = true
  form_iff : ∀ value, form.accepts value = true ↔ Kind.of value = kind
  prepare_eq : ∀ value, validator.prepare value = value
  rewrites : Rewrites validator.plan name transform live form

lemma IsSerialized.validates (h : f.IsSerialized name kind run)
    (hclass : (f.registry options).get? name = some C)
    (hvalidator : Validator.compile f options = .ok validator)
    (htransform : transform? f (f.settings options) "/anyOf/1" name = some transform) :
    ∃ live form, Validates validator name kind C transform live form := by
  obtain ⟨extensions, hcompiles, hmatcher, hplan⟩ := compiled_parts hvalidator
  obtain ⟨live, form, hrewrites, hlive, hform⟩ := h.rewrites hplan htransform
  have hbuild : Matcher.build (f.settings options).matcher extensions (f.registry options)
      (.object (eitherKeywords name kind)) = .ok validator.matcher := by
    rw [hmatcher, ← h.json_eq]
    exact Plan.build_eq_ok_iff.2 ⟨rfl, hcompiles.check⟩
  refine ⟨live, form, ?_, ?_, ?_, ?_, hrewrites⟩
  · intro value
    obtain ⟨hregistry, steps, hsteps⟩ := accepts_of_build hbuild rfl value
    exact hsteps.trans (Matcher.passes_either (hregistry ▸ hclass))
  · intro value
    obtain ⟨hregistry, steps, hsteps⟩ := accepts_of_build hlive rfl value
    exact hsteps.trans (Matcher.passes_instance (hregistry ▸ hclass))
  · intro value
    obtain ⟨-, steps, hsteps⟩ := accepts_of_build hform rfl value
    exact hsteps.trans Matcher.passes_form
  · intro value
    rw [Validator.prepare, Plan.prune, pruneAt_eq_self_of_open (h.closed_node hplan), ite_self]

namespace Validates

variable {live form : Matcher} (h : Validates validator name kind C transform live form)

include h

/-- The limit of a validation is of no account, from two on. -/
lemma within_eq {limit : ℕ} (hlimit : 2 ≤ limit) (value : Json) :
    validator.validateWithin limit value = validator.validate value
      ∧ validator.callsWithin limit value = validator.calls value :=
  Validator.within_eq_of_run (h.rewrites.run_eq_apply hlimit)

/-- An instance is left alone. -/
lemma of_instance (hobject : value.isObject = true) (hinstance : C.isInstance value = true) :
    validator.validate value = .ok ⟨[], value⟩ ∧ validator.calls value = [] := by
  have hrun := h.rewrites.apply_of_instance ((h.live_iff value).2 ⟨hobject, hinstance⟩)
  have haccepts := (h.accepts_iff value).2 (Or.inl ⟨hobject, hinstance⟩)
  have hissues := Validator.structuralIssues_eq_nil_iff.2 haccepts
  rw [Validator.calls_eq, Validator.validate_eq, h.prepare_eq, hrun, hissues]
  refine ⟨?_, rfl⟩
  change Except.ok (Outcome.mk (Validator.report _ ([] ++ [])) value) = _
  rw [Validator.report_nil]

/-- What is neither an instance nor of the kind is refused. -/
lemma of_neither (hinstance : ¬(value.isObject = true ∧ C.isInstance value = true))
    (hkind : Kind.of value ≠ kind) :
    (∃ issues, issues ≠ [] ∧ validator.validate value = .ok ⟨issues, value⟩)
      ∧ validator.calls value = [] := by
  have hrun := h.rewrites.apply_of_neither (Bool.eq_false_iff.2 (mt (h.live_iff value).1 hinstance))
    (Bool.eq_false_iff.2 (mt (h.form_iff value).1 hkind))
  have hissues : validator.structuralIssues value ≠ [] := fun hnil =>
    (h.accepts_iff value).not.2 (not_or.2 ⟨hinstance, hkind⟩)
      (Validator.structuralIssues_eq_nil_iff.1 hnil)
  rw [Validator.calls_eq, Validator.validate_eq, h.prepare_eq, hrun]
  refine ⟨⟨_, ?_, rfl⟩, rfl⟩
  rw [Ne, Validator.report_eq_nil, List.append_eq_nil_iff]
  exact fun hnil => hissues hnil.1

end Validates

/-- What is of the kind, and no instance, is what the function makes of it. -/
lemma Validates.of_kind {live form : Matcher} {construct : Json → Except TransformError Json}
    (h : Validates validator name kind C (deserialize construct kind) live form) (value : Json)
    (hinstance : ¬(value.isObject = true ∧ C.isInstance value = true)) (hkind : Kind.of value = kind) :
    (validator.validate value = match construct value with
      | .ok result => .ok ⟨[], result⟩
      | .error failure => .error (.transformFailed name "" failure))
      ∧ (validator.calls value).map Call.input = [value] := by
  have hissues := Validator.structuralIssues_eq_nil_iff.2 ((h.accepts_iff value).2 (Or.inr hkind))
  have hchain : validator.plan.runChain (validator.plan.node "/anyOf/1") (.root value) value
      = { calls := [⟨(validator.plan.node "/anyOf/1").outline.pointer, "", name, value⟩]
          outcome := (construct value).mapError fun failure => .failed name "" failure } := by
    rw [runChain, h.rewrites.chain_form]
    simp only [runFunctions, deserialize, Transform.ofFunction, hkind, if_true]
    cases construct value <;> rfl
  have hrun := h.rewrites.apply_of_form
    (Bool.eq_false_iff.2 (mt (h.live_iff value).1 hinstance)) ((h.form_iff value).2 hkind)
    (by rw [hchain])
  rw [Validator.calls_eq, Validator.validate_eq, h.prepare_eq, hrun, hchain, hissues]
  refine ⟨?_, rfl⟩
  cases construct value with
  | error failure => rfl
  | ok result =>
    change Except.ok (Outcome.mk (Validator.report _ ([] ++ [])) result) = _
    rw [Validator.report_nil]

lemma IsSerialized.transform?_eq (h : f.IsSerialized name kind run)
    (hconfigured : (f.settings options).transforms.lookup name = none) :
    transform? f (f.settings options) "/anyOf/1" name = some run := by
  rw [transform?, hconfigured, Option.none_or, h.carried]

/-- It has a validator, which rewrites by the function that it carries. -/
lemma IsSerialized.exists_validates (h : f.IsSerialized name kind run)
    (hclass : (f.registry options).get? name = some C)
    (hconfigured : (f.settings options).transforms.lookup name = none)
    (hresolve : ∃ extensions, Extension.resolve (f.settings options).keywords = .ok extensions) :
    ∃ validator live form, Validator.compile f options = .ok validator
      ∧ Validates validator name kind C run live form := by
  obtain ⟨extensions, hresolve⟩ := hresolve
  obtain ⟨validator, hvalidator, -⟩ :=
    exists_compile_iff.2 ⟨extensions, h.compilesWith hclass hresolve, rfl⟩
  obtain ⟨live, form, hvalidates⟩ := h.validates hclass hvalidator (h.transform?_eq hconfigured)
  exact ⟨validator, live, form, hvalidator, hvalidates⟩

variable {cls : ClassRef} {given : Option (Json → Except TransformError Json)} {schema : Fragment}

/-- **Serialized instances.**  Where the options have no transform of the name of the class and the
registry knows the class, the schema compiles unless the options ask for unknown keywords, and
validation leaves an instance alone, makes an instance of a value of the kind, or fails as the
construction does, and refuses any other value.  No limit from two on makes a difference. -/
theorem serializedInstanceOf_validates (hschema : serializedInstanceOf cls given kind = .ok schema)
    (hconfigured : (schema.settings options).transforms.lookup cls.name = none)
    (hclass : (schema.registry options).get? cls.name = some C) :
    ((∃ validator, Validator.compile schema options = .ok validator)
      ↔ ∃ extensions, Extension.resolve (schema.settings options).keywords = .ok extensions)
    ∧ ∃ construct, constructorOf cls given = .ok construct
      ∧ ∀ validator, Validator.compile schema options = .ok validator → ∀ value,
        (if value.isObject ∧ C.isInstance value then
          validator.validate value = .ok ⟨[], value⟩ ∧ validator.calls value = []
        else if Kind.of value = kind then
          (validator.validate value = match construct value with
            | .ok result => .ok ⟨[], result⟩
            | .error failure => .error (.transformFailed cls.name "" failure))
          ∧ (validator.calls value).map Call.input = [value]
        else
          (∃ issues, issues ≠ [] ∧ validator.validate value = .ok ⟨issues, value⟩)
          ∧ validator.calls value = [])
        ∧ ∀ limit, 2 ≤ limit → validator.validateWithin limit value = validator.validate value
          ∧ validator.callsWithin limit value = validator.calls value := by
  obtain ⟨construct, hconstruct, hserialized⟩ := isSerialized_of_ok hschema
  refine ⟨⟨?_, ?_⟩, construct, hconstruct, fun validator hvalidator value => ?_⟩
  · rintro ⟨validator, hvalidator⟩
    obtain ⟨extensions, hcompiles, -⟩ := compiled_parts hvalidator
    exact ⟨extensions, hcompiles.resolve⟩
  · intro hresolve
    obtain ⟨validator, -, -, hvalidator, -⟩ :=
      hserialized.exists_validates hclass hconfigured hresolve
    exact ⟨validator, hvalidator⟩
  · obtain ⟨live, form, hvalidates⟩ :=
      hserialized.validates hclass hvalidator (hserialized.transform?_eq hconfigured)
    refine ⟨?_, fun limit hlimit => hvalidates.within_eq hlimit value⟩
    split
    · rename_i hinstance
      exact hvalidates.of_instance hinstance.1 hinstance.2
    · rename_i hinstance
      split
      · rename_i hkind
        exact hvalidates.of_kind value hinstance hkind
      · rename_i hkind
        exact hvalidates.of_neither hinstance hkind

/-- Dates are read from their text, and left as they are otherwise. -/
theorem dates_are_read : ∃ schema validator, serializedInstanceOf (.named "Date") none .string = .ok schema
    ∧ Validator.compile schema none = .ok validator
    ∧ validator.validate (.string "2020-01-01T00:00:00Z")
      = .ok ⟨[], .object [("$date", .string "2020-01-01T00:00:00.000Z")]⟩
    ∧ validator.validate (.object [("$date", .string "2020-01-01T00:00:00.000Z")])
      = .ok ⟨[], .object [("$date", .string "2020-01-01T00:00:00.000Z")]⟩
    ∧ (∃ failure, validator.validate (.string "soon") = .error (.transformFailed "Date" "" failure))
    ∧ ∃ issues, issues ≠ [] ∧ validator.validate (.bool true) = .ok ⟨issues, .bool true⟩ := by
  obtain ⟨schema, hschema⟩ : ∃ schema, serializedInstanceOf (.named "Date") none .string = .ok schema :=
    ⟨_, rfl⟩
  have hclass : (schema.registry none).get? "Date" = some Class.date := by
    obtain rfl := Except.ok.inj hschema
    rfl
  have hconfigured : (schema.settings none).transforms.lookup "Date" = none := by
    obtain rfl := Except.ok.inj hschema
    rfl
  obtain ⟨hcompiles, construct, hconstruct, hall⟩ :=
    serializedInstanceOf_validates hschema hconfigured hclass
  have hdate : Class.date.construct = construct := Except.ok.inj hconstruct
  obtain ⟨validator, hvalidator⟩ := hcompiles.2 (by
    obtain rfl := Except.ok.inj hschema
    exact ⟨_, rfl⟩)
  have hof := fun value => (hall validator hvalidator value).1
  subst hdate
  refine ⟨schema, validator, hschema, hvalidator, ?_, ?_, ?_, ?_⟩
  · have hread : Class.date.construct (.string "2020-01-01T00:00:00Z")
        = .ok (.object [("$date", .string "2020-01-01T00:00:00.000Z")]) := by decide +kernel
    have hnew := hof (.string "2020-01-01T00:00:00Z")
    rw [if_neg (by decide), if_pos (by decide), hread] at hnew
    exact hnew.1
  · have hdate := hof (.object [("$date", .string "2020-01-01T00:00:00.000Z")])
    rw [if_pos (by decide +kernel)] at hdate
    exact hdate.1
  · have hunreadable : Class.date.construct (.string "soon")
        = .error (Class.reject "Date" (.string "soon") .unreadable) := by decide +kernel
    have hsoon := hof (.string "soon")
    rw [if_neg (by decide), if_pos (by decide), hunreadable] at hsoon
    exact ⟨_, hsoon.1⟩
  · have hother := hof (.bool true)
    rw [if_neg (by decide), if_neg (by decide)] at hother
    exact hother.1

end Fragment

/-! ## Validating what was made -/

/-- The class that a reference stands for where nothing else is known: the one that it carries, or the
built-in one of its name. -/
def ClassRef.class? : ClassRef → Option Class
  | .named name => Class.builtins.lookup name
  | .carried cls => some cls

namespace Fragment

variable {cls : ClassRef} {C : Class} {schema : Fragment} {options : Option Options}
  {validator : Validator} {value data : Json}

lemma constructorOf_none (h : cls.class? = some C) : constructorOf cls none = .ok C.construct := by
  cases cls with
  | named name =>
    have hlookup : Class.builtins.lookup name = some C := h
    rw [constructorOf, hlookup]
  | carried cls =>
    obtain rfl := Option.some.inj h
    rfl

/-- What a validation makes of a value is an instance, if only instances are constructed. -/
lemma Validates.isInstance_data {kind : Kind} {name : String} {live form : Matcher}
    {construct : Json → Except TransformError Json}
    (h : Validates validator name kind C (deserialize construct kind) live form)
    (hbuilds : ∀ form result, construct form = .ok result → C.isInstance result = true)
    (hvalid : validator.validate value = .ok ⟨[], data⟩) : C.isInstance data = true := by
  by_cases hinstance : value.isObject = true ∧ C.isInstance value = true
  · rw [(h.of_instance hinstance.1 hinstance.2).1] at hvalid
    obtain rfl : value = data := by simpa using hvalid
    exact hinstance.2
  by_cases hkind : Kind.of value = kind
  · rw [(h.of_kind value hinstance hkind).1] at hvalid
    cases hconstruct : construct value with
    | error failure => simp [hconstruct] at hvalid
    | ok result =>
      obtain rfl : result = data := by simpa [hconstruct] using hvalid
      exact hbuilds value result hconstruct
  · obtain ⟨⟨issues, hissues, hrefused⟩, -⟩ := h.of_neither hinstance hkind
    rw [hrefused] at hvalid
    exact absurd (by simpa using hvalid : issues = [] ∧ value = data).1 hissues

/-- **Which instances a validation leaves alone**: the objects, and forms that stand for themselves. -/
lemma Validates.validate_instance_iff {kind : Kind} {name : String} {live form : Matcher}
    {construct : Json → Except TransformError Json}
    (h : Validates validator name kind C (deserialize construct kind) live form)
    (hinstance : C.isInstance data = true) : validator.validate data = .ok ⟨[], data⟩
      ↔ data.isObject = true ∨ Kind.of data = kind ∧ construct data = .ok data := by
  by_cases hobject : data.isObject = true
  · exact iff_of_true (h.of_instance hobject hinstance).1 (Or.inl hobject)
  have hnot : ¬(data.isObject = true ∧ C.isInstance data = true) := fun hboth => hobject hboth.1
  by_cases hkind : Kind.of data = kind
  · rw [(h.of_kind data hnot hkind).1]
    cases construct data <;> simp [hobject, hkind]
  · obtain ⟨⟨issues, hissues, hrefused⟩, -⟩ := h.of_neither hnot hkind
    rw [hrefused]
    simp [hobject, hkind, hissues]

/-- **Validating again.**  What a validation makes of a value is left alone by a second one if it is an
instance and an object.  Where the options have no transform of the name of the class, and the class
constructs instances, what a validation makes always is an instance; and a second one leaves it alone
just if it is an object, or a string that the class constructs from itself.  No limit from two on makes a
difference. -/
theorem serializedInstanceOf_validates_again
    (hschema : serializedInstanceOf cls none .string = .ok schema) (hcls : cls.class? = some C)
    (hclass : (schema.registry options).get? cls.name = some C)
    (hvalidator : Validator.compile schema options = .ok validator)
    (hvalid : validator.validate value = .ok ⟨[], data⟩) :
    (C.isInstance data = true → data.isObject = true → validator.validate data = .ok ⟨[], data⟩)
    ∧ ((schema.settings options).transforms.lookup cls.name = none →
      (∀ form result, C.construct form = .ok result → C.isInstance result = true) →
      C.isInstance data = true
        ∧ (validator.validate data = .ok ⟨[], data⟩
          ↔ data.isObject = true ∨ Kind.of data = .string ∧ C.construct data = .ok data))
    ∧ ∀ limit, 2 ≤ limit → validator.validateWithin limit value = validator.validate value
      ∧ validator.validateWithin limit data = validator.validate data := by
  obtain ⟨construct, hconstruct, hserialized⟩ := isSerialized_of_ok hschema
  obtain rfl := Except.ok.inj ((constructorOf_none hcls).symm.trans hconstruct)
  obtain ⟨transform, htransform⟩ := hserialized.exists_transform (schema.settings options)
  obtain ⟨live, form, hrun⟩ := hserialized.validates hclass hvalidator htransform
  refine ⟨fun hinstance hobject => ?_, fun hconfigured hbuilds => ?_,
    fun limit hlimit => ⟨(hrun.within_eq hlimit value).1, (hrun.within_eq hlimit data).1⟩⟩
  · exact (hrun.of_instance hobject hinstance).1
  · obtain ⟨live, form, hvalidates⟩ :=
      hserialized.validates hclass hvalidator (hserialized.transform?_eq hconfigured)
    have hinstance := hvalidates.isInstance_data hbuilds hvalid
    exact ⟨hinstance, hvalidates.validate_instance_iff hinstance⟩

/-- The schema of a built-in class has a validator where no options are given. -/
lemma exists_validates_builtin {name : String} (hbuiltin : Class.builtins.lookup name = some C)
    (hschema : serializedInstanceOf (.named name) none .string = .ok schema)
    (hclass : (schema.registry none).get? name = some C) :
    ∃ validator live form, Validator.compile schema none = .ok validator
      ∧ Validates validator name .string C (deserialize C.construct .string) live form := by
  obtain ⟨construct, hconstruct, hserialized⟩ := isSerialized_of_ok hschema
  have hcls : (ClassRef.named name).class? = some C := hbuiltin
  obtain rfl := Except.ok.inj ((constructorOf_none hcls).symm.trans hconstruct)
  refine hserialized.exists_validates hclass ?_ ?_
  · rw [hserialized.settings_eq]
    rfl
  · rw [hserialized.settings_eq]
    exact ⟨_, rfl⟩

/-- A class of a kind of values constructs its instances. -/
lemma isInstance_of_construct_ofKind {name : String} {isInstance : Json → Bool} {form result : Json}
    (h : (Class.ofKind name isInstance).construct form = .ok result) : isInstance result = true := by
  obtain ⟨read, -, hchecked⟩ := bind_eq_ok.1 h
  unfold Class.checked at hchecked
  split at hchecked
  · obtain rfl := Except.ok.inj hchecked
    assumption
  · simp at hchecked

/-- A date that was read from its text is left alone. -/
theorem dates_validate_again : ∃ schema validator,
    serializedInstanceOf (.named "Date") none .string = .ok schema
      ∧ Validator.compile schema none = .ok validator
      ∧ validator.validate (.string "2020-01-01T00:00:00Z")
        = .ok ⟨[], .object [("$date", .string "2020-01-01T00:00:00.000Z")]⟩
      ∧ validator.validate (.object [("$date", .string "2020-01-01T00:00:00.000Z")])
        = .ok ⟨[], .object [("$date", .string "2020-01-01T00:00:00.000Z")]⟩ := by
  obtain ⟨schema, hschema⟩ : ∃ schema, serializedInstanceOf (.named "Date") none .string = .ok schema :=
    ⟨_, rfl⟩
  have hclass : (schema.registry none).get? "Date" = some Class.date := by
    obtain rfl := Except.ok.inj hschema
    rfl
  obtain ⟨validator, live, form, hvalidator, hvalidates⟩ := exists_validates_builtin rfl hschema hclass
  have hread : Class.date.construct (.string "2020-01-01T00:00:00Z")
      = .ok (.object [("$date", .string "2020-01-01T00:00:00.000Z")]) := by decide +kernel
  have hvalid := (hvalidates.of_kind (.string "2020-01-01T00:00:00Z") (by decide) (by decide)).1
  rw [hread] at hvalid
  exact ⟨schema, validator, hschema, hvalidator, hvalid,
    (serializedInstanceOf_validates_again hschema rfl hclass hvalidator hvalid).1
      (by decide +kernel) (by decide)⟩

/-- A number that was read from its text is an instance, but no object, so it is refused. -/
theorem numbers_do_not_validate_again : ∃ schema validator,
    serializedInstanceOf (.named "Number") none .string = .ok schema
      ∧ (ClassRef.named "Number").class? = some Class.number
      ∧ (∀ form result, Class.number.construct form = .ok result → Class.number.isInstance result = true)
      ∧ (schema.registry none).get? "Number" = some Class.number
      ∧ Validator.compile schema none = .ok validator
      ∧ validator.validate (.string "42") = .ok ⟨[], .int 42⟩
      ∧ Class.number.isInstance (.int 42) = true
      ∧ ∃ issues, issues ≠ [] ∧ validator.validate (.int 42) = .ok ⟨issues, .int 42⟩ := by
  obtain ⟨schema, hschema⟩ : ∃ schema, serializedInstanceOf (.named "Number") none .string = .ok schema :=
    ⟨_, rfl⟩
  have hclass : (schema.registry none).get? "Number" = some Class.number := by
    obtain rfl := Except.ok.inj hschema
    rfl
  obtain ⟨validator, live, form, hvalidator, hvalidates⟩ := exists_validates_builtin rfl hschema hclass
  have hread : Class.number.construct (.string "42") = .ok (.int 42) := by decide +kernel
  have hvalid := (hvalidates.of_kind (.string "42") (by decide) (by decide)).1
  rw [hread] at hvalid
  exact ⟨schema, validator, hschema, rfl, fun _ _ => isInstance_of_construct_ofKind, hclass,
    hvalidator, hvalid, rfl, (hvalidates.of_neither (by decide) (by decide)).1⟩

end Fragment

end SchemaAlgebra
