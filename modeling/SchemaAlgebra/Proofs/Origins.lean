import SchemaAlgebra.Proofs.Compilation
import SchemaAlgebra.Proofs.Decisions
import SchemaAlgebra.Proofs.Tokens
import SchemaAlgebra.Proofs.Trace

/-!
# What matchers see

Branches and conditions are decided on the value as it was before the run.  A position carries that
value along (`Position.origin`); wherever there was one, it is the right one (`Position.Sighted`),
whatever transforms have made of the containers in the meantime.  What a plan decides there depends on
the document alone, not on the transforms: plans of one document differ in their chains only
(`Plan.bare_node`).

What is decided can therefore be foreseen (`Plan.foreseen`), from the document and the value alone.

**`Plan.matchers_see_original`** — a run is the one that these decisions govern, so every decision is
taken on the original value, and two runs on one value with other transforms decide alike.
-/

namespace SchemaAlgebra

/-! ## Positions -/

namespace Json

lemma step?_lenient_of_strict {value below : Json} {token : String}
    (h : step? Pointer.strictIndex? value token = some below) :
    step? Pointer.lenientIndex? value token = some below := by
  cases value with
  | array items =>
    obtain ⟨index, hindex, hitem⟩ := Option.bind_eq_some_iff.1 h
    exact Option.bind_eq_some_iff.2 ⟨index, Pointer.lenientIndex?_of_strictIndex? hindex, hitem⟩
  | _ => exact h

lemma resolve?_child (value : Json) (base : Pointer) (token : String) :
    value.resolve? (Pointer.child base token)
      = (value.resolve? base).bind fun above => step? Pointer.strictIndex? above token := by
  have hjoin : Pointer.child base token = Pointer.join base [token] := rfl
  simp [hjoin, resolve?_join, walk?_cons]

end Json

namespace Position

/-- If there was a value at the position, the position knows it. -/
def Sighted (value : Json) (at_ : Position) : Prop :=
  ∀ before, value.resolve? at_.path = some before → at_.origin = before

lemma sighted_root (value : Json) : (root value).Sighted value := by
  intro before h
  exact Option.some.inj h

/-- **Going down.**  A member or item that there was is found in the container that there was; the
value that it has now is of no account. -/
lemma Sighted.child {value : Json} {at_ : Position} (h : at_.Sighted value) (key : String)
    (current : Json) : (at_.child key current).Sighted value := by
  intro before hbefore
  rw [Position.child, Json.resolve?_child] at hbefore
  obtain ⟨above, habove, hstep⟩ := Option.bind_eq_some_iff.1 hbefore
  rw [Position.child, h above habove, Json.step?_lenient_of_strict hstep, Option.getD_some]

end Position

namespace Plan

/-! ## Plans of one document -/

/-- A node without its transforms. -/
def bareNode (node : PlanNode) : PlanNode :=
  { node with chain := [] }

lemma forall₂_of_both {α β γ : Type} {R : α → β → Prop} {S : α → γ → Prop} {T : β → γ → Prop}
    (h : ∀ a b c, R a b → S a c → T b c) {as : List α} {bs : List β} {cs : List γ}
    (hbs : List.Forall₂ R as bs) (hcs : List.Forall₂ S as cs) : List.Forall₂ T bs cs := by
  induction hbs generalizing cs with
  | nil =>
    cases hcs
    exact .nil
  | cons hb _ ih =>
    cases hcs with
    | cons hc hcs => exact .cons (h _ _ _ hb hc) (ih hcs)

/-- Two chains are of one node, and empty or not alike. -/
def AlikeEntries (a b : Pointer × Chain) : Prop :=
  a.1 = b.1 ∧ a.2.isEmpty = b.2.isEmpty

variable {build : MatcherBuilder} {schema₁ schema₂ : Fragment} {options₁ options₂ : Options}
  {document : Json} {chains₁ chains₂ : List (Pointer × Chain)} {plan₁ plan₂ : Plan}

/-- What is empty is told by the document, which lists the names of the transforms. -/
lemma alike_chains (h₁ : chains schema₁ options₁ document = .ok chains₁)
    (h₂ : chains schema₂ options₂ document = .ok chains₂) :
    List.Forall₂ AlikeEntries chains₁ chains₂ := by
  refine forall₂_of_both ?_ (mapM_forall₂ h₁) (mapM_forall₂ h₂)
  intro pointer a b ha hb
  obtain ⟨chain₁, hchain₁, ha⟩ := bind_eq_ok.1 ha
  obtain ⟨chain₂, hchain₂, hb⟩ := bind_eq_ok.1 hb
  obtain rfl := Except.ok.inj ha
  obtain rfl := Except.ok.inj hb
  have hnames : chain₁.map Prod.fst = chain₂.map Prod.fst :=
    (names_of_chainAt hchain₁).trans (names_of_chainAt hchain₂).symm
  refine ⟨rfl, ?_⟩
  simpa using congrArg List.isEmpty hnames

lemma activeNodes_alike (h : List.Forall₂ AlikeEntries chains₁ chains₂) :
    activeNodes document chains₁ = activeNodes document chains₂ := by
  have hboth : chains₁.map Prod.fst = chains₂.map Prod.fst
      ∧ (chains₁.filter fun entry => !entry.2.isEmpty).map Prod.fst
        = (chains₂.filter fun entry => !entry.2.isEmpty).map Prod.fst := by
    induction h with
    | nil => exact ⟨rfl, rfl⟩
    | @cons a b _ _ hab _ ih =>
      obtain ⟨hpointer, hempty⟩ := hab
      refine ⟨by simp [hpointer, ih.1], ?_⟩
      cases hb : b.2.isEmpty <;> simp [hempty, hb, hpointer, ih.2]
  rw [activeNodes, activeNodes, hboth.1, hboth.2]

lemma bareNode_of_assembleNode {active : List Pointer} {a b : Pointer × Chain}
    {node₁ node₂ : PlanNode} (hab : a.1 = b.1)
    (h₁ : assembleNode build document active a = .ok node₁)
    (h₂ : assembleNode build document active b = .ok node₂) : bareNode node₁ = bareNode node₂ := by
  obtain ⟨pointer, chain₁⟩ := a
  obtain ⟨_, chain₂⟩ := b
  obtain rfl : pointer = _ := hab
  obtain ⟨patterns, hpatterns, h₁⟩ := bind_eq_ok.1 h₁
  obtain ⟨branches, hbranches, h₁⟩ := bind_eq_ok.1 h₁
  obtain ⟨condition, hcondition, h₁⟩ := bind_eq_ok.1 h₁
  obtain ⟨patterns', hpatterns', h₂⟩ := bind_eq_ok.1 h₂
  obtain ⟨branches', hbranches', h₂⟩ := bind_eq_ok.1 h₂
  obtain ⟨condition', hcondition', h₂⟩ := bind_eq_ok.1 h₂
  obtain rfl := Except.ok.inj (hpatterns.symm.trans hpatterns')
  obtain rfl := Except.ok.inj (hbranches.symm.trans hbranches')
  obtain rfl := Except.ok.inj (hcondition.symm.trans hcondition')
  obtain rfl := Except.ok.inj h₁
  obtain rfl := Except.ok.inj h₂
  rfl

lemma bareNodes_of_assembleNode {active : List Pointer} {nodes₁ nodes₂ : List PlanNode}
    (halike : List.Forall₂ AlikeEntries chains₁ chains₂)
    (h₁ : chains₁.mapM (assembleNode build document active) = .ok nodes₁)
    (h₂ : chains₂.mapM (assembleNode build document active) = .ok nodes₂) :
    List.Forall₂ (fun a b => bareNode a = bareNode b) nodes₁ nodes₂ := by
  have hsecond : List.Forall₂ (fun a node => ∃ b, AlikeEntries a b
      ∧ assembleNode build document active b = .ok node) chains₁ nodes₂ :=
    forall₂_of_both (fun b a node hab hb => ⟨b, hab, hb⟩) halike.flip (mapM_forall₂ h₂)
  refine forall₂_of_both ?_ (mapM_forall₂ h₁) hsecond
  rintro a node₁ node₂ ha ⟨b, hab, hb⟩
  exact bareNode_of_assembleNode hab.1 ha hb

lemma bareNode_node (plan : Plan) (pointer : Pointer) : bareNode (plan.node pointer)
    = ((plan.node? pointer).map bareNode).getD { outline := { pointer := pointer } } := by
  cases h : plan.node? pointer <;> simp [Plan.node, h, bareNode]

lemma find?_of_bareNodes {nodes₁ nodes₂ : List PlanNode} (pointer : Pointer)
    (h : List.Forall₂ (fun a b => bareNode a = bareNode b) nodes₁ nodes₂) :
    (nodes₁.find? fun node => node.outline.pointer = pointer).map bareNode
      = (nodes₂.find? fun node => node.outline.pointer = pointer).map bareNode := by
  induction h with
  | nil => rfl
  | @cons a b _ _ hab _ ih =>
    have houtline : a.outline = b.outline := by
      show (bareNode a).outline = (bareNode b).outline
      rw [hab]
    by_cases hpointer : b.outline.pointer = pointer
    · simp [houtline, hpointer, hab]
    · simpa [List.find?_cons, houtline, hpointer] using ih

/-- **Plans of one document** differ in their chains only. -/
lemma bare_node (h₁ : compile build schema₁ options₁ = .ok plan₁)
    (h₂ : compile build schema₂ options₂ = .ok plan₂) (hjson : schema₁.json = schema₂.json)
    (pointer : Pointer) : bareNode (plan₁.node pointer) = bareNode (plan₂.node pointer) := by
  obtain ⟨chains₁, hchains₁, h₁⟩ := bind_eq_ok.1 h₁
  obtain ⟨chains₂, hchains₂, h₂⟩ := bind_eq_ok.1 h₂
  obtain ⟨nodes₁, hnodes₁, h₁⟩ := bind_eq_ok.1 h₁
  obtain ⟨nodes₂, hnodes₂, h₂⟩ := bind_eq_ok.1 h₂
  obtain rfl := Except.ok.inj h₁
  obtain rfl := Except.ok.inj h₂
  rw [← hjson] at hchains₂ hnodes₂
  have halike := alike_chains hchains₁ hchains₂
  rw [← activeNodes_alike halike] at hnodes₂
  rw [bareNode_node, bareNode_node]
  exact congrArg (Option.getD · _)
    (find?_of_bareNodes pointer (bareNodes_of_assembleNode halike hnodes₁ hnodes₂))

/-! ## Decisions -/

/-- What a node decides is told by the document. -/
lemma decide_node (h₁ : compile build schema₁ options₁ = .ok plan₁)
    (h₂ : compile build schema₂ options₂ = .ok plan₂) (hjson : schema₁.json = schema₂.json)
    (pointer : Pointer) : (plan₁.node pointer).decide = (plan₂.node pointer).decide := by
  show (bareNode (plan₁.node pointer)).decide = (bareNode (plan₂.node pointer)).decide
  rw [bare_node h₁ h₂ hjson]

/-- The decisions that can be foreseen: what the nodes of a plan say to the value that is at a path of
the validated value, or, at a path that leads to none, to the value that counts as what was there. -/
def foreseen (plan : Plan) (value : Json) : Decisions :=
  fun pointer at_ => (plan.node pointer).decide ((value.resolve? at_.path).getD at_.origin)

/-- Where there was a value, a position has no say in what is foreseen. -/
lemma foreseen_of_resolve? {value before : Json} {at_ : Position}
    (h : value.resolve? at_.path = some before) (plan : Plan) (pointer : Pointer) :
    plan.foreseen value pointer at_ = (plan.node pointer).decide before := by
  rw [foreseen, h, Option.getD_some]

/-- **A run decides as foreseen**, also the run of a plan of the same document. -/
lemma run_eq_runBy_foreseen {plan plan' : Plan}
    (h : ∀ pointer, (plan.node pointer).decide = (plan'.node pointer).decide) (steps : ℕ)
    (value : Json) : plan.run steps value = plan.runBy (plan'.foreseen value) steps value := by
  refine run_eq_runBy (Position.sighted_root value) (fun _ key current hat => hat.child key current)
    (fun pointer at_ hat => ?_) steps
  rw [h pointer, foreseen]
  cases hbefore : value.resolve? at_.path with
  | none => rfl
  | some before => rw [hat before hbefore, Option.getD_some]

/-- **A run sees the original value**, and decides on it as it has been foreseen. -/
structure SeesOriginal (plan : Plan) (decisions : Decisions) (steps : ℕ) (value : Json) : Prop where
  /-- The events are those of the run. -/
  traced : (plan.traceRun steps value).pass = plan.run steps value
  /-- At each event the position carries the value that was at its path, if there was one. -/
  origin : ∀ event ∈ (plan.traceRun steps value).events, ∀ before,
    value.resolve? event.position.path = some before → event.position.origin = before
  /-- The run tries the branches, and takes the sides, that are listed in advance. -/
  governed : plan.run steps value = plan.runBy decisions steps value

lemma seesOriginal_foreseen {plan plan' : Plan}
    (h : ∀ pointer, (plan.node pointer).decide = (plan'.node pointer).decide) (steps : ℕ)
    (value : Json) : plan.SeesOriginal (plan'.foreseen value) steps value where
  traced := plan.pass_traceRun steps value
  origin := plan.every_traceRun steps value (Position.sighted_root value) fun _ key current hat =>
    hat.child key current
  governed := run_eq_runBy_foreseen h steps value

/-- **Every decision is taken on the original value.**  The runs of all plans of one document, with
whatever transforms, carry the value along that was at each path, and are governed by the decisions that
can be foreseen from it.  At a path that led to a value these are the same whatever the position, so two
runs that come to one node there try the same branches and take the same side. -/
theorem matchers_see_original (h₁ : compile build schema₁ options₁ = .ok plan₁)
    (h₂ : compile build schema₂ options₂ = .ok plan₂) (hjson : schema₁.json = schema₂.json)
    (steps₁ steps₂ : ℕ) (value : Json) :
    plan₁.SeesOriginal (plan₁.foreseen value) steps₁ value
    ∧ plan₂.SeesOriginal (plan₁.foreseen value) steps₂ value
    ∧ (∀ at₁ at₂ : Position, at₁.path = at₂.path → (value.resolve? at₁.path).isSome = true →
      ∀ pointer, plan₁.foreseen value pointer at₁ = plan₁.foreseen value pointer at₂)
    ∧ ∀ event₁ ∈ (plan₁.traceRun steps₁ value).events,
      ∀ event₂ ∈ (plan₂.traceRun steps₂ value).events,
        event₁.node = event₂.node → event₁.position.path = event₂.position.path →
        (value.resolve? event₁.position.path).isSome = true →
        (plan₁.node event₁.node).decide event₁.position.origin
          = (plan₂.node event₂.node).decide event₂.position.origin := by
  have hdecide := decide_node h₁ h₂ hjson
  have hfirst : plan₁.SeesOriginal (plan₁.foreseen value) steps₁ value :=
    seesOriginal_foreseen (fun _ => rfl) steps₁ value
  have hsecond : plan₂.SeesOriginal (plan₁.foreseen value) steps₂ value :=
    seesOriginal_foreseen (fun pointer => (hdecide pointer).symm) steps₂ value
  refine ⟨hfirst, hsecond, ?_, ?_⟩
  · intro at₁ at₂ hpath hsome pointer
    obtain ⟨before, hbefore⟩ := Option.isSome_iff_exists.1 hsome
    rw [foreseen_of_resolve? hbefore, foreseen_of_resolve? (hpath ▸ hbefore)]
  · intro event₁ hevent₁ event₂ hevent₂ hnode hpath hsome
    obtain ⟨before, hbefore⟩ := Option.isSome_iff_exists.1 hsome
    rw [hfirst.origin event₁ hevent₁ before hbefore,
      hsecond.origin event₂ hevent₂ before (hpath ▸ hbefore), hnode, hdecide]

/-- A schema that rewrites a member which its branches tell apart. -/
def branchingSchema : Fragment where
  keywords :=
    [("anyOf", .array [
        .object [("properties", .object [("n", .object [("maximum", .int 5)])]),
          ("transform", .array [.string "keep"])],
        .object [("transform", .array [.string "keep"])]]),
      ("properties", .object [("n", .object [("transform", .array [.string "set"])])])]

/-- Options under which the schema rewrites the member to a number. -/
def branchingOptions (number : ℤ) : Options where
  transforms := Table.ofPairs [("keep", Transform.ofFunction .ok),
    ("set", Transform.ofFunction fun _ => .ok (.int number))]

/-- The value whose member is rewritten. -/
def branchingValue : Json :=
  .object [("n", .int 4)]

/-- The calls of a run that takes the first branch. -/
def branchingCalls (number : ℤ) : List Call :=
  [⟨"/properties/n", "/n", "set", .int 4⟩, ⟨"/anyOf/0", "", "keep", .object [("n", .int number)]⟩]

/-- Whether the member becomes a small number or a great one, the runs decide alike: both take the
first branch, which only accepts small ones. -/
theorem branchingSchema_decides_alike : ∃ plan₁ plan₂,
    compile (Matcher.build {} [] {}) branchingSchema (branchingOptions 0) = .ok plan₁
      ∧ compile (Matcher.build {} [] {}) branchingSchema (branchingOptions 9) = .ok plan₂
      ∧ (plan₁.run 8 branchingValue).calls = branchingCalls 0
      ∧ (plan₂.run 8 branchingValue).calls = branchingCalls 9
      ∧ plan₁.SeesOriginal (plan₁.foreseen branchingValue) 8 branchingValue
      ∧ plan₂.SeesOriginal (plan₁.foreseen branchingValue) 8 branchingValue
      ∧ (∀ at₁ at₂ : Position, at₁.path = at₂.path →
        (branchingValue.resolve? at₁.path).isSome = true → ∀ pointer,
          plan₁.foreseen branchingValue pointer at₁ = plan₁.foreseen branchingValue pointer at₂)
      ∧ ∀ event₁ ∈ (plan₁.traceRun 8 branchingValue).events,
        ∀ event₂ ∈ (plan₂.traceRun 8 branchingValue).events,
          event₁.node = event₂.node → event₁.position.path = event₂.position.path →
          (branchingValue.resolve? event₁.position.path).isSome = true →
          (plan₁.node event₁.node).decide event₁.position.origin
            = (plan₂.node event₂.node).decide event₂.position.origin := by
  have hcalls : ∀ number ∈ [(0 : ℤ), 9],
      (compile (Matcher.build {} [] {}) branchingSchema (branchingOptions number) >>= fun plan =>
        .ok (plan.run 8 branchingValue).calls) = .ok (branchingCalls number) := by
    decide +kernel
  obtain ⟨plan₁, h₁, hcalls₁⟩ := bind_eq_ok.1 (hcalls 0 (by simp))
  obtain ⟨plan₂, h₂, hcalls₂⟩ := bind_eq_ok.1 (hcalls 9 (by simp))
  exact ⟨plan₁, plan₂, h₁, h₂, Except.ok.inj hcalls₁, Except.ok.inj hcalls₂,
    matchers_see_original h₁ h₂ rfl 8 8 branchingValue⟩

end Plan

end SchemaAlgebra
