import SchemaAlgebra.Proofs.Observers

/-!
# How failures are reported

Two options say how failures are reported: whether all of them or only the first, and whether an issue
shows the schema and the data that it is about.  Neither has a say in what is found.

A run could show its issues in the end, as validation does, or each of them as soon as it is
made, before branches are picked by what the issues of others are.  These are the same
(`Validator.validateAtOnce_eq`), as a branch is picked by whether it has issues, not by which.

* `Pass.mapIssues` — a pass with its issues changed one by one.
* `Plan.visitShowing` — a visit that shows each issue as it is made.
* `Plan.Shows.visitNode`, `Plan.shows_visit` — it is the visit with its issues shown in the end.
* `Options.SameButReporting` — options that differ in nothing but how failures are reported.
* `Validator.reporting_keeps_verdict` — they lead to the same verdict on every value.
-/

namespace SchemaAlgebra

/-! ## Changing issues -/

namespace Pass

variable {α β : Type} {f : Issue → Issue} {p : Pass α}

/-- The run with each of its issues changed. -/
def mapIssues (f : Issue → Issue) (p : Pass α) : Pass α :=
  { p with issues := p.issues.map f }

@[simp] lemma outcome_mapIssues : (p.mapIssues f).outcome = p.outcome := rfl

@[simp] lemma issues_mapIssues : (p.mapIssues f).issues = p.issues.map f := rfl

@[simp] lemma mapIssues_pure (a : α) : (pure a : Pass α).mapIssues f = pure a := rfl

@[simp] lemma mapIssues_bind (next : α → Pass β) :
    (p >>= next).mapIssues f = p.mapIssues f >>= fun a => (next a).mapIssues f := by
  cases h : p.outcome with
  | error halt =>
    have hmapped : (p.mapIssues f).outcome = .error halt := h
    rw [bind_eq, bind_eq, andThen_of_error h, andThen_of_error hmapped]
    rfl
  | ok a =>
    have hmapped : (p.mapIssues f).outcome = .ok a := h
    rw [bind_eq, bind_eq, andThen_of_ok h, andThen_of_ok hmapped]
    simp [mapIssues]

@[simp] lemma mapIssues_map (g : α → β) : (g <$> p).mapIssues f = g <$> p.mapIssues f := by
  rw [← bind_pure_comp, ← bind_pure_comp, mapIssues_bind]
  rfl

lemma mapIssues_mapM (g : α → Pass β) (items : List α) :
    (items.mapM g).mapIssues f = items.mapM fun a => (g a).mapIssues f := by
  induction items with
  | nil => simp
  | cons a items ih => simp [ih]

lemma mapIssues_foldlM (g : β → α → Pass β) (items : List α) (b : β) :
    (items.foldlM g b).mapIssues f = items.foldlM (fun b a => (g b a).mapIssues f) b := by
  induction items generalizing b with
  | nil => simp
  | cons a items ih => simp [ih]

/-- Whether a branch that is tried is taken depends on whether it has issues, and not on which. -/
lemma mapIssues_settle {tried : Pass (Json × List Pointer)} {rest rest' : List Issue → Pass Json}
    (h : ∀ issues, rest' (issues.map f) = (rest issues).mapIssues f) :
    (tried.mapIssues f).settle rest' = (tried.settle rest).mapIssues f := by
  have hsilenced : (tried.mapIssues f).silenced = tried.silenced.mapIssues f := rfl
  have hempty : (tried.mapIssues f).issues.isEmpty = tried.issues.isEmpty := List.isEmpty_map
  rw [settle, settle, outcome_mapIssues]
  cases tried.outcome with
  | error halt => exact (mapIssues_map Prod.fst).symm
  | ok result =>
    rw [hsilenced, hempty, mapIssues_bind]
    refine congrArg (tried.silenced.mapIssues f >>= ·) (funext fun result => ?_)
    split
    · rfl
    · exact h tried.issues

end Pass

/-! ## Issues that are shown as they are made -/

namespace Plan

open Pass

/-- Visits an active node for the first time at a position.  The issues of its chain are shown at once.
-/
def visitNodeShowing (plan : Plan) (shown : Issue → Issue) (visit : Visit) (node : PlanNode)
    (at_ : Position) (value : Json) (seen : List Pointer) : Pass (Json × List Pointer) := do
  let value ← visitInside visit node at_ value
  let (value, seen) ← visitEach visit at_ node.outline.conjuncts value seen
  let value ← plan.tryBranches visit at_ value seen node.branches []
  let (value, seen) ← visitEach visit at_ (selected? node at_.origin).toList value seen
  return (← (plan.runChain node at_ value).mapIssues shown, seen)

/-- Visits a node, within a budget of steps.  Every issue is shown as it is made. -/
def visitShowing (plan : Plan) (shown : Issue → Issue) : Nat → Visit
  | 0, _, _, _, _ => .halt .exhausted
  | steps + 1, pointer, at_, value, seen =>
    let node := plan.node pointer
    if !node.active || pointer ∈ seen then .done (value, seen)
    else plan.visitNodeShowing shown (plan.visitShowing shown steps) node at_ value (pointer :: seen)

/-- Runs the transforms on a value, within a budget of steps.  Every issue is shown as it is made. -/
def runShowing (plan : Plan) (shown : Issue → Issue) (steps : Nat) (value : Json) : Pass Json :=
  Prod.fst <$> plan.visitShowing shown steps "" (.root value) value []

section
variable {plan : Plan} {shown : Issue → Issue} {visit visit' : Visit}

/-- Visits show their issues at once, and other visits in the end. -/
def Shows (shown : Issue → Issue) (visit' visit : Visit) : Prop :=
  ∀ pointer at_ value seen,
    visit' pointer at_ value seen = (visit pointer at_ value seen).mapIssues shown

lemma Shows.visitChild (h : Shows shown visit' visit) (at_ : Position) (key : String)
    (child : Pointer) (value : Json) :
    visitChild visit' at_ key child value = (visitChild visit at_ key child value).mapIssues shown := by
  rw [Plan.visitChild, Plan.visitChild, h, mapIssues_map]

lemma Shows.visitMembers (h : Shows shown visit' visit) (at_ : Position) (selects : String → Bool)
    (child : Pointer) (members : Entries Json) :
    visitMembers visit' at_ selects child members
      = (visitMembers visit at_ selects child members).mapIssues shown := by
  rw [Plan.visitMembers, Plan.visitMembers, mapIssues_mapM]
  refine congrArg₂ _ (funext ?_) rfl
  rintro ⟨key, value⟩
  by_cases hkey : selects key = true
  · simp [hkey, h.visitChild]
  · simp [hkey]

lemma Shows.visitItems (h : Shows shown visit' visit) (node : PlanNode) (at_ : Position)
    (items : List Json) :
    visitItems visit' node at_ items = (visitItems visit node at_ items).mapIssues shown := by
  rw [Plan.visitItems, Plan.visitItems, mapIssues_mapM]
  refine congrArg₂ _ (funext ?_) rfl
  rintro ⟨item, index⟩
  cases hnode : node.outline.itemNode? index with
  | none => simp [hnode]
  | some child => simp [hnode, h.visitChild]

lemma Shows.visitInside (h : Shows shown visit' visit) (node : PlanNode) (at_ : Position)
    (value : Json) :
    visitInside visit' node at_ value = (visitInside visit node at_ value).mapIssues shown := by
  cases value with
  | object members => simp [Plan.visitInside, mapIssues_foldlM, h.visitMembers]
  | array items => simp [Plan.visitInside, h.visitItems]
  | _ => rfl

lemma Shows.visitEach (h : Shows shown visit' visit) (at_ : Position) (nodes : List Pointer)
    (value : Json) (seen : List Pointer) :
    visitEach visit' at_ nodes value seen = (visitEach visit at_ nodes value seen).mapIssues shown := by
  rw [Plan.visitEach, Plan.visitEach, mapIssues_foldlM]
  refine congrArg (fun step => nodes.foldlM step (value, seen)) (funext ?_)
  rintro ⟨value, seen⟩
  exact funext fun node => h node at_ value seen

/-- **Branches.**  The issues that are set aside are shown already. -/
lemma Shows.tryBranches (h : Shows shown visit' visit) (at_ : Position) (value : Json)
    (seen : List Pointer) (branches : List (Matcher × Pointer)) (rejected : List Issue) :
    plan.tryBranches visit' at_ value seen branches (rejected.map shown)
      = (plan.tryBranches visit at_ value seen branches rejected).mapIssues shown := by
  induction branches generalizing rejected with
  | nil => rfl
  | cons branch branches ih =>
    obtain ⟨matcher, pointer⟩ := branch
    rw [tryBranches_cons, tryBranches_cons]
    split
    · exact ih rejected
    split
    · rfl
    · rw [h]
      refine mapIssues_settle fun issues => ?_
      rw [← ih (rejected ++ issues), List.map_append]

/-- **One visit.** -/
lemma Shows.visitNode (h : Shows shown visit' visit) (node : PlanNode) (at_ : Position) (value : Json)
    (seen : List Pointer) :
    plan.visitNodeShowing shown visit' node at_ value seen
      = (plan.visitNode visit node at_ value seen).mapIssues shown := by
  have hbranches : ∀ value seen, plan.tryBranches visit' at_ value seen node.branches []
      = (plan.tryBranches visit at_ value seen node.branches []).mapIssues shown := fun value seen =>
    h.tryBranches at_ value seen node.branches []
  simp only [visitNodeShowing, Plan.visitNode, mapIssues_bind, mapIssues_pure, h.visitInside,
    h.visitEach, hbranches]

/-- **The whole visit**, by induction on the budget. -/
lemma shows_visit (plan : Plan) (shown : Issue → Issue) (steps : ℕ) :
    Shows shown (plan.visitShowing shown steps) (plan.visit steps) := by
  induction steps with
  | zero => intro pointer at_ value seen; rfl
  | succ steps ih =>
    intro pointer at_ value seen
    rw [visitShowing, visit]
    split
    · rfl
    · exact ih.visitNode _ at_ value _

/-- The run that shows each issue as it is made is the run with its issues shown in the end. -/
theorem runShowing_eq (plan : Plan) (shown : Issue → Issue) (steps : ℕ) (value : Json) :
    plan.runShowing shown steps value = (plan.run steps value).mapIssues shown := by
  rw [runShowing, run, shows_visit, mapIssues_map]

end

end Plan

/-! ## Validation that shows issues at once -/

/-- The issue as the options want it shown, in full or terse. -/
def MatcherOptions.shown (options : MatcherOptions) (issue : Issue) : Issue :=
  if options.isVerbose then issue else issue.terse

namespace Validator

variable {options p q : MatcherOptions} {issues : List Issue}

/-- Validation that makes every issue as the options want it shown.  All but the first are dropped when
the run is over. -/
def validateAtOnce (validator : Validator) (limit : ℕ) (value : Json) : Except ValidatorError Outcome :=
  let prepared := validator.prepare value
  let run := validator.plan.runShowing validator.options.shown limit prepared
  match run.outcome with
  | .error halt => .error (.ofHalt halt)
  | .ok data =>
    let found := (validator.structuralIssues prepared).map validator.options.shown ++ run.issues
    .ok ⟨if validator.options.reportsAll then found else found.take 1, data⟩

lemma report_eq (options : MatcherOptions) (issues : List Issue) :
    report options issues
      = if options.reportsAll then issues.map options.shown else (issues.map options.shown).take 1 := by
  show List.map options.shown _ = _
  split
  · rfl
  · exact List.map_take

/-- **Showing issues at once** is showing them in the end. -/
theorem validateAtOnce_eq (validator : Validator) (limit : ℕ) (value : Json) :
    validator.validateAtOnce limit value = validator.validateWithin limit value := by
  rw [validateAtOnce, validateWithin, Plan.runShowing_eq, Pass.outcome_mapIssues]
  cases (validator.plan.run limit (validator.prepare value)).outcome with
  | error halt => rfl
  | ok data =>
    show Except.ok (Outcome.mk _ data) = Except.ok (Outcome.mk _ data)
    rw [Pass.issues_mapIssues, report_eq, List.map_append]

/-! ## Lists of issues as they are shown -/

lemma isEmpty_report : (report options issues).isEmpty = issues.isEmpty := by
  rw [report_eq]
  cases issues with
  | nil => simp
  | cons issue issues => split <;> rfl

/-- Only the first of them is shown. -/
lemma report_of_first (hverbose : p.isVerbose = q.isVerbose) (hp : p.reportsAll = true)
    (hq : q.reportsAll = false) : report q issues = (report p issues).take 1 := by
  have hshown : q.shown = p.shown := funext fun issue => by
    rw [MatcherOptions.shown, MatcherOptions.shown, hverbose]
  rw [report_eq, report_eq, hp, hq, hshown]
  rfl

/-- They are shown terse. -/
lemma report_of_terse (hall : p.reportsAll = q.reportsAll) (hp : p.isVerbose = true)
    (hq : q.isVerbose = false) : report q issues = (report p issues).map Issue.terse := by
  have hfull : p.shown = id := funext fun issue => if_pos hp
  have hterse : q.shown = Issue.terse := funext fun issue => by
    rw [MatcherOptions.shown, hq]
    rfl
  rw [report_eq, report_eq, hall, hfull, hterse, List.map_id]
  split
  · rfl
  · exact List.map_take.symm

end Validator

/-! ## Options that differ in how failures are reported -/

/-- The options differ in nothing but how failures are reported. -/
structure Options.SameButReporting (a b : Options) : Prop where
  transforms : a.transforms = b.transforms
  keywords : a.keywords = b.keywords
  classes : a.classes = b.classes
  draft : a.matcher.draft = b.matcher.draft
  validateFormats : a.matcher.validateFormats = b.matcher.validateFormats
  removeAdditional : a.matcher.removeAdditional = b.matcher.removeAdditional

namespace Options

/-- The same options are laid over. -/
lemma SameButReporting.merged (attached : Option Options) {a b : Option Options}
    (h : (a.getD {}).SameButReporting (b.getD {})) :
    (merged attached a).SameButReporting (merged attached b) := by
  simp only [Options.merged, overlay, MatcherOptions.overlay]
  constructor <;> simp only [h.transforms, h.keywords, h.classes, h.draft, h.validateFormats,
    h.removeAdditional]

end Options

/-- Two computations fail with one error, or come to results that are related. -/
def Agree {ε α β : Type} (R : α → β → Prop) : Except ε α → Except ε β → Prop
  | .ok a, .ok b => R a b
  | .error e, .error e' => e = e'
  | _, _ => False

/-- Two outcomes are the same, but for how the issues are shown: `p` and `q` are the settings of the
validators that lead to them. -/
structure Outcome.SameButShown (p q : MatcherOptions) (x y : Outcome) : Prop where
  /-- The verdict is the same. -/
  valid : x.valid = y.valid
  /-- The value is the same. -/
  data : x.data = y.data
  /-- One list of issues is shown in both. -/
  issues : ∃ found : List Issue,
    x.issues = Validator.report p found ∧ y.issues = Validator.report q found
  /-- If one shows all issues and the other the first, that is the first of all, if there are any. -/
  first : p.isVerbose = q.isVerbose → p.reportsAll = true → q.reportsAll = false →
    y.errors? = x.errors?.map (List.take 1)
  /-- If one shows issues in full and the other does not, that leaves out the schemas and the data. -/
  terse : p.reportsAll = q.reportsAll → p.isVerbose = true → q.isVerbose = false →
    y.errors? = x.errors?.map (List.map Issue.terse)
  /-- If they show issues alike, they are the same. -/
  alike : p.reportsAll = q.reportsAll → p.isVerbose = q.isVerbose → y = x

namespace Validator

variable {p q : MatcherOptions}

/-- Issues may be shown in either way without a change of the verdict. -/
lemma sameButShown_report (found : List Issue) (data : Json) :
    Outcome.SameButShown p q ⟨report p found, data⟩ ⟨report q found, data⟩ where
  valid := by rw [Outcome.valid, Outcome.valid, isEmpty_report, isEmpty_report]
  data := rfl
  issues := ⟨found, rfl, rfl⟩
  first := by
    intro hverbose hp hq
    simp only [Outcome.errors?, Outcome.valid, isEmpty_report]
    split
    · rfl
    · exact congrArg some (report_of_first hverbose hp hq)
  terse := by
    intro hall hp hq
    simp only [Outcome.errors?, Outcome.valid, isEmpty_report]
    split
    · rfl
    · exact congrArg some (report_of_terse hall hp hq)
  alike := by
    intro hall hverbose
    have hshown : q.shown = p.shown := funext fun issue => by
      rw [MatcherOptions.shown, MatcherOptions.shown, hverbose]
    rw [report_eq, report_eq, hall, hshown]

/-- The same functions are found for the names of transforms. -/
lemma chains_of_sameButReporting (schema : Fragment) {a b : Options} (h : a.SameButReporting b) :
    Plan.chains schema b = Plan.chains schema a := by
  have hresolve : ∀ pointer items,
      Plan.resolveChain schema b pointer items = Plan.resolveChain schema a pointer items := by
    intro pointer items
    induction items with
    | nil => rfl
    | cons item items ih => simp only [Plan.resolveChain, Plan.transform?, h.transforms, ih]
  funext document
  simp only [Plan.chains, Plan.chainAt, hresolve]

/-- The same matcher and the same plan are compiled. -/
lemma compileWith_of_sameButReporting (schema : Fragment) {a b : Options} (h : a.SameButReporting b) :
    compileWith schema b = (fun v => { v with options := b.matcher }) <$> compileWith schema a := by
  have hregistry : Registry.build b schema = Registry.build a schema := by
    rw [Registry.build, Registry.build, h.classes]
  have hnames : ∀ registry, schema.checkNames b registry = schema.checkNames a registry := by
    intro registry
    simp only [Fragment.checkNames, Fragment.checkTransforms, Fragment.knowsTransform, h.transforms]
  have hbuild : Matcher.build b.matcher = Matcher.build a.matcher := by
    funext extensions registry value
    simp only [Matcher.build, MatcherOptions.effectiveDraft, MatcherOptions.enforcesFormats, h.draft,
      h.validateFormats]
  have hplan : ∀ build, Plan.compile build schema b = Plan.compile build schema a := by
    intro build
    simp only [Plan.compile, chains_of_sameButReporting schema h]
  simp only [compileWith, hregistry, h.keywords, hnames, hbuild, hplan, map_bind, map_pure]

/-- A validator keeps the settings that were in effect. -/
lemma options_of_compileWith {schema : Fragment} {options : Options} {v : Validator}
    (h : compileWith schema options = .ok v) : v.options = options.matcher := by
  obtain ⟨extensions, -, h⟩ := bind_eq_ok.1 h
  obtain ⟨-, -, h⟩ := bind_eq_ok.1 h
  obtain ⟨matcher, -, h⟩ := bind_eq_ok.1 h
  obtain ⟨plan, -, h⟩ := bind_eq_ok.1 h
  exact congrArg Validator.options (Except.ok.inj h).symm

/-- Validators that differ in nothing but how failures are reported come to the same verdict. -/
lemma validateWithin_of_sameButReporting {v : Validator} {options : MatcherOptions}
    (hprunes : v.options.prunes = options.prunes) (limit : ℕ) (value : Json) :
    Agree (Outcome.SameButShown v.options options) (v.validateWithin limit value)
      ({ v with options := options }.validateWithin limit value) := by
  have hprepare : { v with options := options }.prepare value = v.prepare value := by
    rw [prepare, prepare, hprunes]
  have hstructural : ∀ value,
      { v with options := options }.structuralIssues value = v.structuralIssues value := fun _ => rfl
  simp only [validateWithin, hprepare, hstructural]
  cases (v.plan.run limit (v.prepare value)).outcome with
  | error halt => rfl
  | ok data => exact sameButShown_report _ data

/-- **How failures are reported has no say in the verdict.**  Options that differ in nothing else either
all compile or all fail to; then, on every value, they fail with one error or find the same issues, and
the same value.  The issues are shown as each of the options wants them, and it makes no difference
whether they are shown as soon as they are made.  So it is within every limit, and for `validate`, which is
validation within one of them. -/
theorem reporting_keeps_verdict (schema : Fragment) {a b : Option Options}
    (h : (a.getD {}).SameButReporting (b.getD {})) :
    Agree (fun v w => ∀ value,
        Agree (Outcome.SameButShown v.options w.options) (v.validate value) (w.validate value)
          ∧ ∀ limit, Agree (Outcome.SameButShown v.options w.options) (v.validateWithin limit value)
              (w.validateWithin limit value)
            ∧ v.validateAtOnce limit value = v.validateWithin limit value
            ∧ w.validateAtOnce limit value = w.validateWithin limit value)
      (compile schema a) (compile schema b) := by
  have hmerged := h.merged schema.options?
  rw [compile, compile, compileWith_of_sameButReporting schema hmerged]
  cases hcompile : compileWith schema (Options.merged schema.options? a) with
  | error e => rfl
  | ok v =>
    have hprunes : v.options.prunes = (Options.merged schema.options? b).matcher.prunes := by
      rw [options_of_compileWith hcompile, MatcherOptions.prunes, MatcherOptions.prunes,
        hmerged.removeAdditional]
    have hwithin := fun limit value => validateWithin_of_sameButReporting hprunes limit value
    exact fun value => ⟨hwithin Plan.nestingLimit value, fun limit =>
      ⟨hwithin limit value, validateAtOnce_eq _ limit value, validateAtOnce_eq _ limit value⟩⟩

/-- A schema with a limit, and with a transform in a branch and one of its own. -/
def loudSchema : Fragment where
  keywords :=
    [("anyOf", .array [.object [("transform", .array [.string "t"])]]), ("maximum", .int 5),
      ("transform", .array [.string "t"])]

/-- Options that let a validator say little. -/
def quietOptions : Options :=
  { tattleOptions "t" with matcher := { allErrors := some false, verbose := some false } }

/-- The keywords that a validation of a number complains about. -/
def complaintsAbout (number : Int) (options : Options) : Option (List String) := do
  let v ← (compile loudSchema (some options)).toOption
  let outcome ← (v.validate (.int number)).toOption
  return outcome.issues.map Issue.keyword

/-- Of three complaints about a number, one is reported, and the number is refused either way. -/
theorem loudSchema_verdict :
    ((some (tattleOptions "t")).getD {}).SameButReporting ((some quietOptions).getD {})
    ∧ Agree (fun v w => ∀ value,
        Agree (Outcome.SameButShown v.options w.options) (v.validate value) (w.validate value)
          ∧ ∀ limit, Agree (Outcome.SameButShown v.options w.options) (v.validateWithin limit value)
              (w.validateWithin limit value)
            ∧ v.validateAtOnce limit value = v.validateWithin limit value
            ∧ w.validateAtOnce limit value = w.validateWithin limit value)
      (compile loudSchema (some (tattleOptions "t"))) (compile loudSchema (some quietOptions))
    ∧ complaintsAbout 9 (tattleOptions "t") = some ["maximum", "transform", "transform"]
    ∧ complaintsAbout 9 quietOptions = some ["maximum"] := by
  have hsame : (tattleOptions "t").SameButReporting quietOptions := ⟨rfl, rfl, rfl, rfl, rfl, rfl⟩
  exact ⟨hsame, reporting_keeps_verdict loudSchema hsame, by decide +kernel, by decide +kernel⟩

end Validator

end SchemaAlgebra
