import SchemaAlgebra.Proofs.Deserialized

/-!
# Chains that a schema carries

A schema that is given functions lists their names, in order, and carries the functions in a table under
those names.  The plan puts the chain together again: it looks up each name that is listed.  So where
two functions have one name, the last of them runs for both (`Fragment.settled`), and the chain is the
given one exactly if functions of one name are the same.

* `Plan.foldChain`, `Plan.called` — what a chain makes of a value, and which calls that takes: each on
  the value that those before it lead to, until one fails.
* `Plan.runFunctions_eq` — the run of a chain is this.
* `Fragment.CarriesChain` — the schema of a chain that is carried, and its plan.
* `Fragment.carried_chain_validates` — what it makes of a value.
-/

namespace SchemaAlgebra

/-! ## The run of a chain -/

namespace Plan

variable {context : String → TransformContext} {chain : Chain} {value : Json}

/-- One function of a chain: its value, or its name and its failure. -/
def stepChain (context : String → TransformContext) (value : Json) (entry : String × Transform) :
    Except (String × TransformError) Json :=
  (entry.2 (context entry.1) value).outcome.mapError fun failure => (entry.1, failure)

/-- What the functions of a chain make of a value, one after another, up to the first that fails. -/
def foldChain (context : String → TransformContext) (chain : Chain) (value : Json) :
    Except (String × TransformError) Json :=
  chain.foldlM (stepChain context) value

/-- The functions that are called, each with the value that those before it lead to. -/
def called (context : String → TransformContext) (chain : Chain) (value : Json) :
    List ((String × Transform) × Json) :=
  chain.zipIdx.filterMap fun (entry, place) =>
    (foldChain context (chain.take place) value).toOption.map fun input => (entry, input)

/-- What the functions that are called report, in order. -/
def reported (context : String → TransformContext) (chain : Chain) (value : Json) :
    List TransformIssue :=
  (called context chain value).flatMap fun call => (call.1.2 (context call.1.1) call.2).issues

/-- The first function is called on the value, and the others on what it leads to. -/
lemma called_cons (entry : String × Transform) :
    called context (entry :: chain) value
      = (entry, value) :: match stepChain context value entry with
        | .ok next => called context chain next
        | .error _ => [] := by
  have hrest : (chain.zipIdx 1).filterMap (fun (other, place) =>
        (foldChain context ((entry :: chain).take place) value).toOption.map fun input => (other, input))
      = match stepChain context value entry with
        | .ok next => called context chain next
        | .error _ => [] := by
    have hshift : chain.zipIdx 1 = chain.zipIdx.map fun (other, place) => (other, place + 1) :=
      List.zipIdx_succ
    rw [hshift, List.filterMap_map]
    cases h : stepChain context value entry with
    | ok next =>
      refine List.filterMap_congr fun other _ => ?_
      simp [foldChain, h, bind, Except.bind]
    | error failure =>
      refine List.filterMap_eq_nil_iff.2 fun other _ => ?_
      simp [foldChain, h, bind, Except.bind, Except.toOption]
  rw [called, List.zipIdx_cons]
  exact congrArg ((entry, value) :: ·) hrest

/-- **The run of a chain** makes these calls, reports what they report, and comes to this result. -/
lemma runFunctions_eq (context : String → TransformContext) (chain : Chain) (value : Json) :
    runFunctions context chain value =
      { inputs := (called context chain value).map fun call => (call.1.1, call.2)
        reported := reported context chain value
        outcome := foldChain context chain value } := by
  induction chain generalizing value with
  | nil => rfl
  | cons entry chain ih =>
    obtain ⟨name, transform⟩ := entry
    rw [reported, called_cons, foldChain, List.foldlM_cons, stepChain, runFunctions]
    cases h : (transform (context name) value).outcome with
    | error failure => simp [Except.mapError, bind, Except.bind]
    | ok next => simp [ih next, Except.mapError, bind, Except.bind, foldChain, reported]

end Plan

/-! ## The schema of a chain -/

namespace Fragment

/-- The functions of a chain, for a schema to carry. -/
def inlined (chain : Chain) : List TransformRef :=
  chain.map fun entry => .inlined entry.1 entry.2

/-- The chain with the last of the functions of one name for all of them. -/
def settled (chain : Chain) : Chain :=
  chain.map fun entry => (entry.1, (Entries.lookup entry.1 chain.reverse).getD entry.2)

/-- What a schema says that only lists the names of a chain. -/
def chainKeywords (chain : Chain) : Entries Json :=
  [("transform", stringArray (chain.map Prod.fst))]

/-- A schema that lists the names of a chain and carries its functions. -/
structure CarriesChain (f : Fragment) (chain : Chain) : Prop where
  keywords : f.keywords = chainKeywords chain
  options : f.options? = none
  carried : (f.recordAt? "").bind Metadata.transforms = some (Table.empty.enter chain)

variable {f : Fragment} {chain : Chain} {options : Option Options} {settings : Options}

/-- **The schema of a chain.**  The functions need names. -/
lemma exists_carriesChain (hne : chain ≠ []) (hnames : ∀ entry ∈ chain, entry.1 ≠ "") :
    ∃ f, empty.withTransforms (inlined chain) = .ok f ∧ f.CarriesChain chain := by
  have hnamed : (inlined chain).any isUnnamed = false := by
    refine List.any_eq_false.2 fun reference hreference => ?_
    obtain ⟨entry, hentry, rfl⟩ := List.mem_map.1 hreference
    simpa [isUnnamed] using hnames entry hentry
  have hlisted : (inlined chain).map TransformRef.name = chain.map Prod.fst := by
    rw [inlined, List.map_map]
    rfl
  have hcarried : chain.filterMap (fun entry => some (entry.1, entry.2)) = chain := List.filterMap_some
  have hfilled : chain.isEmpty = false := List.isEmpty_eq_false_iff.2 hne
  have hmade : empty.withTransforms (inlined chain)
      = .ok ((empty.withKeyword "transform" (stringArray (chain.map Prod.fst))).modifyRoot fun m =>
        { m with transforms := some (Table.empty.enter chain) }) := by
    unfold withTransforms
    rw [hnamed, hlisted, inlined, List.filterMap_map]
    simp only [Function.comp_def]
    rw [hcarried, hfilled]
    rfl
  exact ⟨_, hmade, rfl, rfl, rfl⟩

/-- Each name of a chain has a function that is the last. -/
lemma exists_last {entry : String × Transform} (hentry : entry ∈ chain) :
    ∃ run, Entries.lookup entry.1 chain.reverse = some run := by
  rw [← Option.isSome_iff_exists, ← Entries.contains_eq_isSome]
  exact List.any_eq_true.2 ⟨entry, List.mem_reverse.2 hentry, decide_eq_true rfl⟩

/-- The function that stands for a name is the last of that name, unless one is configured. -/
lemma CarriesChain.transform?_eq (h : f.CarriesChain chain) {entry : String × Transform}
    (hentry : entry ∈ chain) (hconfigured : settings.transforms.lookup entry.1 = none) :
    Plan.transform? f settings "" entry.1
      = some ((Entries.lookup entry.1 chain.reverse).getD entry.2) := by
  have hlast : (Table.empty.enter chain).lookup entry.1 = Entries.lookup entry.1 chain.reverse := by
    refine (Entries.lookup_enter_reverse chain [] entry.1).trans ?_
    rw [Entries.lookup_nil, Option.or_none]
  obtain ⟨run, hrun⟩ := exists_last hentry
  rw [Plan.transform?, hconfigured, Option.none_or, h.carried, Option.bind_some, hlast, hrun]
  rfl

/-- The names of a chain stand for the settled chain. -/
lemma CarriesChain.resolveChain_eq (h : f.CarriesChain chain)
    (hconfigured : ∀ entry ∈ chain, settings.transforms.lookup entry.1 = none) :
    Plan.resolveChain f settings "" ((chain.map Prod.fst).map .string) = .ok (settled chain) := by
  suffices hpart : ∀ part ⊆ chain, Plan.resolveChain f settings "" ((part.map Prod.fst).map .string)
      = .ok (part.map fun entry => (entry.1, (Entries.lookup entry.1 chain.reverse).getD entry.2)) from
    hpart chain (List.Subset.refl _)
  intro part hpart
  induction part with
  | nil => rfl
  | cons entry part ih =>
    obtain ⟨hentry, hrest⟩ := List.cons_subset.1 hpart
    have htransform := h.transform?_eq hentry (hconfigured entry hentry)
    simp only [List.map_cons, Plan.resolveChain, Json.string?, Option.getD_some, htransform, ih hrest]
    rfl

/-- Functions of one name are the same. -/
def AgreesByName (chain : Chain) : Prop :=
  ∀ a ∈ chain, ∀ b ∈ chain, a.1 = b.1 → a.2 = b.2

/-- **The settled chain** is the chain exactly if functions of one name are the same. -/
lemma settled_eq_iff : settled chain = chain ↔ AgreesByName chain := by
  have hsettled : settled chain = chain
      ↔ ∀ entry ∈ chain, (Entries.lookup entry.1 chain.reverse).getD entry.2 = entry.2 := by
    have hid : settled chain = chain ↔ settled chain = chain.map id := by rw [List.map_id]
    rw [hid, settled, List.map_inj_left]
    exact forall₂_congr fun entry _ => ⟨fun h => congrArg Prod.snd h, fun h => Prod.ext rfl h⟩
  rw [hsettled]
  constructor
  · intro h a ha b hb hname
    obtain ⟨run, hrun⟩ := exists_last ha
    have hfirst := h a ha
    have hsecond := h b hb
    rw [hrun, Option.getD_some] at hfirst
    rw [← hname, hrun, Option.getD_some] at hsecond
    exact hfirst.symm.trans hsecond
  · intro h entry hentry
    obtain ⟨run, hrun⟩ := exists_last hentry
    rw [hrun, Option.getD_some]
    exact h _ (List.mem_reverse.1 (Entries.mem_of_lookup hrun)) _ hentry rfl

end Fragment

/-! ## What its matcher demands -/

namespace Matcher

open Fragment (chainKeywords stringArray)

variable {m : Matcher} {scope : Scope} {chain : Chain} {value : Json} {steps : ℕ}

lemma namesOfItems?_strings (names : List String) : namesOfItems? (names.map .string) = some names := by
  induction names with
  | nil => rfl
  | cons name names ih =>
    rw [namesOfItems?] at ih ⊢
    simp [ih, Json.string?]

/-- The list of names is an assertion that holds of every value. -/
lemma read?_chain (registry : Registry) (extensions : List Extension) (keywords : Entries Json)
    (names : List String) : Assertion.read? registry extensions keywords "transform" (stringArray names)
      = some (.ok .transform) := by
  simp [Assertion.read?, Assertion.readTransform, stringArray, namesOfItems?_strings]

/-- The schema of a chain admits every value. -/
lemma passes_chain : m.Passes (steps + 1) scope (.object (chainKeywords chain)) value := by
  rw [passes_iff_allows rfl, chainKeywords, List.forall_mem_singleton]
  simp [Allows, keywordViolations, read?_chain, Assertion.holds, require]

lemma silent_chain (scope : Scope) : m.Silent (scope, .object (chainKeywords chain)) := by
  refine ⟨rfl, fun lead hlead => ?_⟩
  obtain ⟨entry, hentry, rfl⟩ := mem_leads_object.1 hlead
  have hentry := List.mem_singleton.1 (mem_of_mem_effectiveKeywords hentry)
  subst hentry
  simp [Matcher.lead, read?_chain]

lemma exists_build_chain {options : MatcherOptions} {extensions : List Extension}
    {registry : Registry} :
    ∃ m, build options extensions registry (.object (chainKeywords chain)) = .ok m := by
  refine exists_build ?_ ?_ rfl fun m _ next => (silent_chain _).isSound_of_leads
  · cases options.effectiveDraft <;> rfl
  · cases options.effectiveDraft <;> rfl

end Matcher

/-! ## Its plan -/

namespace Outline

variable {chain : Chain}

lemma read_chain : read (.object (Fragment.chainKeywords chain)) "" = { pointer := "" } := by
  rw [read_of_keywordsAt? (show keywordsAt? _ _ = some (Fragment.chainKeywords chain) from rfl)]
  simp [ofKeywords, named, single?, itemRule, isListed, itemsBeyond?, listed, Fragment.chainKeywords,
    Entries.lookup, Entries.contains, Json.localTarget?]

/-- The root is its only node. -/
lemma mem_nodes_chain {pointer : Pointer} :
    pointer ∈ nodes (.object (Fragment.chainKeywords chain)) ↔ pointer = "" := by
  rw [mem_nodes_iff]
  constructor
  · intro hleads
    induction hleads with
    | refl => rfl
    | @tail before after _ hedge ih =>
      have hedge : after ∈ edges _ before := hedge
      rw [ih, edges, read_chain] at hedge
      exact absurd hedge List.not_mem_nil
  · rintro rfl
    exact .refl

end Outline

namespace Fragment

open Plan

variable {f : Fragment} {chain : Chain} {options : Option Options} {settings : Options}
  {extensions : List Extension} {validator : Validator}

section

variable (h : f.CarriesChain chain)

include h

lemma CarriesChain.json_eq : f.json = .object (chainKeywords chain) := by
  rw [json, h.keywords]

lemma CarriesChain.settings_eq : f.settings options = Options.merged none options := by
  rw [Fragment.settings, h.options]

/-- Its only node runs the settled chain. -/
lemma CarriesChain.chainAt_root
    (hconfigured : ∀ entry ∈ chain, settings.transforms.lookup entry.1 = none) :
    chainAt f settings f.json "" = .ok (settled chain) := by
  have hkeywords : Outline.keywordsAt? f.json "" = some (chainKeywords chain) := by
    rw [h.json_eq]
    rfl
  have hplaced : misplaced? "" (chainKeywords chain) = none := rfl
  rw [chainAt, hkeywords]
  dsimp only
  rw [hplaced]
  exact h.resolveChain_eq hconfigured

/-- The names in the schema are known. -/
lemma CarriesChain.checkNames (registry : Registry)
    (hconfigured : ∀ entry ∈ chain, settings.transforms.lookup entry.1 = none) :
    f.checkNames settings registry = .ok () := by
  have hsubschemas : f.json.subschemas = [("", chainKeywords chain)] := by
    rw [h.json_eq]
    rfl
  have hunknown : (chain.map Prod.fst).find? (fun name => !f.knowsTransform settings "" name) = none := by
    refine List.find?_eq_none.2 fun name hname => ?_
    obtain ⟨entry, hentry, rfl⟩ := List.mem_map.1 hname
    rw [knowsTransform_eq, h.transform?_eq hentry (hconfigured entry hentry)]
    simp
  have hlookup : Entries.lookup "transform" (chainKeywords chain)
      = some (stringArray (chain.map Prod.fst)) := rfl
  have hitems : (stringArray (chain.map Prod.fst)).items?.bind namesOfItems?
      = some (chain.map Prod.fst) := Matcher.namesOfItems?_strings _
  have htransforms : f.checkTransforms settings "" (chainKeywords chain) = .ok () := by
    rw [checkTransforms, hlookup]
    dsimp only
    rw [hitems]
    dsimp only
    rw [hunknown]
  rw [Fragment.checkNames, hsubschemas]
  exact bind_eq_ok.2 ⟨(), bind_eq_ok.2 ⟨(), rfl, htransforms⟩, rfl⟩

lemma CarriesChain.compilesWith
    (hconfigured : ∀ entry ∈ chain, (f.settings options).transforms.lookup entry.1 = none)
    (hresolve : Extension.resolve (f.settings options).keywords = .ok extensions) :
    f.CompilesWith options extensions where
  resolve := hresolve
  names := h.checkNames _ hconfigured
  check := by
    have hbuild : ∃ m, Matcher.build (f.settings options).matcher extensions (f.registry options)
        (.object (chainKeywords chain)) = .ok m := Matcher.exists_build_chain
    obtain ⟨m, hm⟩ := hbuild
    obtain ⟨rfl, hcheck⟩ := build_eq_ok_iff.1 hm
    rw [matcherWith, h.json_eq]
    exact hcheck
  plan := by
    refine exists_plan_iff.2 fun pointer hpointer => ?_
    rw [h.json_eq, Outline.mem_nodes_chain] at hpointer
    subst hpointer
    refine ⟨⟨_, h.chainAt_root hconfigured⟩, buildable_of_read ?_⟩
    rw [h.json_eq, Outline.read_chain]

end

/-- What a validator of the schema consists of. -/
structure RunsChain (validator : Validator) (chain : Chain) : Prop where
  accepts : ∀ value, validator.matcher.accepts value = true
  prepare_eq : ∀ value, validator.prepare value = value
  document : validator.document = .object (chainKeywords chain)
  flat : (validator.plan.node "").IsFlat
  active : (validator.plan.node "").active = true
  branches : (validator.plan.node "").branches = []
  pointer : (validator.plan.node "").outline.pointer = ""
  chain : (validator.plan.node "").chain = settled chain

lemma CarriesChain.runsChain (h : f.CarriesChain chain) (hne : chain ≠ [])
    (hconfigured : ∀ entry ∈ chain, (f.settings options).transforms.lookup entry.1 = none)
    (hvalidator : Validator.compile f options = .ok validator) : RunsChain validator chain := by
  obtain ⟨extensions, hcompiles, hmatcher, hplan⟩ := compiled_parts hvalidator
  have hroot : "" ∈ Outline.nodes f.json := by rw [h.json_eq, Outline.mem_nodes_chain]
  have hread : (validator.plan.node "").outline = { pointer := "" } := by
    rw [outline_node hplan hroot, h.json_eq, Outline.read_chain]
  have hchain : (validator.plan.node "").chain = settled chain :=
    Except.ok.inj ((compiled_node hplan hroot).2.chain.symm.trans (h.chainAt_root hconfigured))
  refine ⟨fun value => ?_, fun value => ?_, ?_, isFlat_of_outline hplan hroot hread, ?_, ?_, ?_, hchain⟩
  · have hbuild : Matcher.build (f.settings options).matcher extensions (f.registry options)
        (.object (chainKeywords chain)) = .ok validator.matcher := by
      rw [hmatcher, ← h.json_eq]
      exact Plan.build_eq_ok_iff.2 ⟨rfl, hcompiles.check⟩
    obtain ⟨-, steps, hsteps⟩ := accepts_of_build hbuild rfl value
    exact hsteps.2 Matcher.passes_chain
  · have hopen : ∀ pointer, (validator.plan.node pointer).outline.closed = false := by
      refine closed_node_of_read hplan fun pointer hpointer => ?_
      rw [h.json_eq] at hpointer ⊢
      rw [Outline.mem_nodes_chain.1 hpointer, Outline.read_chain]
    rw [Validator.prepare, Plan.prune, pruneAt_eq_self_of_open hopen, ite_self]
  · rw [Validator.document, (compile_ok hplan).1, h.json_eq]
  · refine (active_iff hplan hroot).2 ⟨"", .refl, ?_⟩
    rw [hchain]
    simpa [settled] using hne
  · have hbranches := branches_node hplan hroot
    rw [hread] at hbranches
    simpa using hbranches
  · rw [hread]

/-- What the functions of a chain see when the root of a schema with these keywords lists them. -/
def rootContext (chain : Chain) (name : String) : TransformContext :=
  ⟨name, "", none, .object (chainKeywords chain)⟩

/-- A run is that of the chain on the whole value, within any budget. -/
lemma RunsChain.run_eq (h : RunsChain validator chain) (steps : ℕ) (value : Json) :
    validator.plan.run (steps + 1) value
      = validator.plan.runChain (validator.plan.node "") (.root value) value := by
  have hvisit : validator.plan.visit (steps + 1) "" (.root value) value []
      = validator.plan.visitNode (validator.plan.visit steps) (validator.plan.node "") (.root value)
          value [""] := by
    rw [visit, h.active]
    rfl
  have hnone : validator.plan.tryBranches (validator.plan.visit steps) (.root value) value [""] [] []
      = pure value := rfl
  rw [Plan.run, hvisit, visitNode_of_flat h.flat, h.branches, hnone, pure_bind, map_bind]
  simp only [map_pure, bind_pure]

lemma RunsChain.apply_eq (h : RunsChain validator chain) (value : Json) :
    validator.plan.apply value
      = validator.plan.runChain (validator.plan.node "") (.root value) value :=
  h.run_eq 4095 value

/-- The limit of a validation is of no account, from one on. -/
lemma RunsChain.within_eq (h : RunsChain validator chain) {limit : ℕ} (hlimit : 1 ≤ limit)
    (value : Json) : validator.validateWithin limit value = validator.validate value
      ∧ validator.callsWithin limit value = validator.calls value := by
  obtain ⟨steps, rfl⟩ := Nat.exists_eq_add_of_le' hlimit
  exact Validator.within_eq_of_run ((h.run_eq steps _).trans (h.apply_eq _).symm)

/-- The run of the chain, as calls and their results. -/
lemma RunsChain.runChain_eq (h : RunsChain validator chain) (value : Json) :
    validator.plan.runChain (validator.plan.node "") (.root value) value
      = { calls := (called (rootContext chain) (settled chain) value).map fun call =>
            ⟨"", "", call.1.1, call.2⟩
          issues := match foldChain (rootContext chain) (settled chain) value with
            | .ok last => (reported (rootContext chain) (settled chain) value).map
                (validator.plan.issueOf "" (.root value) last)
            | .error _ => []
          outcome := (foldChain (rootContext chain) (settled chain) value).mapError fun failed =>
            .failed failed.1 "" failed.2 } := by
  have hcontext : (fun name => (⟨name, (Position.root value).path, (Position.root value).key,
      validator.plan.parentSchema ""⟩ : TransformContext)) = rootContext chain := by
    have hschema : validator.plan.parentSchema "" = .object (chainKeywords chain) := h.document
    rw [hschema]
    rfl
  rw [runChain, h.pointer, h.chain]
  dsimp only
  rw [hcontext, runFunctions_eq]
  cases foldChain (rootContext chain) (settled chain) value with
  | ok last => simp [Except.mapError, Position.root]
  | error failed => simp [Except.mapError, Position.root]

/-- **The schema compiles** unless the options ask for unknown keywords. -/
lemma CarriesChain.compiles_iff (h : f.CarriesChain chain)
    (hconfigured : ∀ entry ∈ chain, (f.settings options).transforms.lookup entry.1 = none) :
    (∃ validator, Validator.compile f options = .ok validator)
      ↔ ∃ extensions, Extension.resolve (f.settings options).keywords = .ok extensions := by
  constructor
  · rintro ⟨validator, hvalidator⟩
    obtain ⟨extensions, hcompiles, -⟩ := compiled_parts hvalidator
    exact ⟨extensions, hcompiles.resolve⟩
  · rintro ⟨extensions, hresolve⟩
    obtain ⟨validator, hvalidator, -⟩ :=
      exists_compile_iff.2 ⟨extensions, h.compilesWith hconfigured hresolve, rfl⟩
    exact ⟨validator, hvalidator⟩

lemma RunsChain.calls_eq (h : RunsChain validator chain) (value : Json) :
    validator.calls value
      = (called (rootContext chain) (settled chain) value).map fun call =>
          ⟨"", "", call.1.1, call.2⟩ := by
  rw [Validator.calls_eq, h.prepare_eq, h.apply_eq, h.runChain_eq]

lemma RunsChain.validate_eq (h : RunsChain validator chain) (value : Json) :
    validator.validate value = match foldChain (rootContext chain) (settled chain) value with
      | .ok last => .ok ⟨Validator.report validator.options
          ((reported (rootContext chain) (settled chain) value).map
            (validator.plan.issueOf "" (.root value) last)), last⟩
      | .error (name, failure) => .error (.transformFailed name "" failure) := by
  rw [Validator.validate_eq, h.prepare_eq, h.apply_eq, h.runChain_eq,
    Validator.structuralIssues_eq_nil_iff.2 (h.accepts value)]
  cases foldChain (rootContext chain) (settled chain) value with
  | ok last => rfl
  | error failed => rfl

/-- **Chains that a schema carries.**  A non-empty list of named functions, of which none has the name
of a configured transform, makes a schema, which compiles unless the options ask for unknown keywords.
Its validator calls the functions of the settled chain one after another, each on what those before it
lead to.  If none fails, the last value is the result, and the issues are those that the calls reported,
in order; the first that fails ends the validation, under its name and at the root.  No limit makes a
difference, unless it is zero.  The settled chain is the given one exactly if functions of one name are the
same. -/
theorem carried_chain_validates (hne : chain ≠ []) (hnames : ∀ entry ∈ chain, entry.1 ≠ "")
    (hconfigured : ∀ entry ∈ chain,
      (Options.merged none options).transforms.lookup entry.1 = none) :
    (settled chain = chain ↔ AgreesByName chain)
    ∧ ∃ schema, empty.withTransforms (inlined chain) = .ok schema
      ∧ ((∃ validator, Validator.compile schema options = .ok validator)
        ↔ ∃ extensions, Extension.resolve (Options.merged none options).keywords = .ok extensions)
      ∧ ∀ validator, Validator.compile schema options = .ok validator → ∀ value,
        (validator.calls value = (called (rootContext chain) (settled chain) value).map fun call =>
          ⟨"", "", call.1.1, call.2⟩)
        ∧ (validator.validate value = match foldChain (rootContext chain) (settled chain) value with
          | .ok last => .ok ⟨Validator.report validator.options
              ((reported (rootContext chain) (settled chain) value).map
                (validator.plan.issueOf "" (.root value) last)), last⟩
          | .error (name, failure) => .error (.transformFailed name "" failure))
        ∧ ∀ limit, 1 ≤ limit → validator.validateWithin limit value = validator.validate value
          ∧ validator.callsWithin limit value = validator.calls value := by
  obtain ⟨schema, hschema, hcarries⟩ := exists_carriesChain hne hnames
  rw [← hcarries.settings_eq] at hconfigured ⊢
  refine ⟨settled_eq_iff, schema, hschema, hcarries.compiles_iff hconfigured,
    fun validator hvalidator value => ?_⟩
  have hruns := hcarries.runsChain hne hconfigured hvalidator
  exact ⟨hruns.calls_eq value, hruns.validate_eq value, fun limit hlimit => hruns.within_eq hlimit value⟩

/-- The transform that makes a value the only member of an object, and says so. -/
def wrap (key : String) : Transform := fun context value =>
  { issues := [context.issue key none], outcome := .ok (.object [(key, value)]) }

/-- A chain of two functions and the first again. -/
def wrapTwice : Chain :=
  [("f", wrap "a"), ("g", wrap "b"), ("f", wrap "a")]

/-- The functions run as listed: the first, the second, and the first again. -/
theorem wrapTwice_validates : wrapTwice ≠ [] ∧ (∀ entry ∈ wrapTwice, entry.1 ≠ "")
    ∧ (∀ entry ∈ wrapTwice, (Options.merged none none).transforms.lookup entry.1 = none)
    ∧ settled wrapTwice = wrapTwice
    ∧ ∃ schema validator, empty.withTransforms (inlined wrapTwice) = .ok schema
      ∧ Validator.compile schema none = .ok validator
      ∧ (validator.calls .null).map Call.transformation = ["f", "g", "f"]
      ∧ ∃ issues, issues.map Issue.message = ["a", "b", "a"]
        ∧ validator.validate .null
          = .ok ⟨Validator.report validator.options issues,
            .object [("a", .object [("b", .object [("a", .null)])])]⟩ := by
  have hne : wrapTwice ≠ [] := List.cons_ne_nil _ _
  have hnames : ∀ entry ∈ wrapTwice, entry.1 ≠ "" := by simp [wrapTwice]
  have hconfigured : ∀ entry ∈ wrapTwice,
      (Options.merged none none).transforms.lookup entry.1 = none := fun entry _ => rfl
  obtain ⟨-, schema, hschema, hcompiles, hall⟩ := carried_chain_validates hne hnames hconfigured
  obtain ⟨validator, hvalidator⟩ := hcompiles.2 ⟨_, rfl⟩
  obtain ⟨hcalls, hvalidate, -⟩ := hall validator hvalidator .null
  refine ⟨hne, hnames, hconfigured, rfl, schema, validator, hschema, hvalidator, ?_, ?_⟩
  · rw [hcalls]
    rfl
  · exact ⟨_, rfl, hvalidate⟩

/-- Two functions under one name. -/
def sharedName : Chain :=
  [("f", wrap "a"), ("f", wrap "b")]

/-- The last of the two runs for both. -/
theorem sharedName_runs_last_twice : ∃ schema validator,
    empty.withTransforms (inlined sharedName) = .ok schema
      ∧ Validator.compile schema none = .ok validator
      ∧ foldChain (rootContext sharedName) sharedName .null
        = .ok (.object [("b", .object [("a", .null)])])
      ∧ ∃ issues, validator.validate .null
        = .ok ⟨issues, .object [("b", .object [("b", .null)])]⟩ := by
  have hne : sharedName ≠ [] := List.cons_ne_nil _ _
  obtain ⟨schema, hschema, hcarries⟩ := exists_carriesChain hne (by simp [sharedName])
  have hconfigured : ∀ entry ∈ sharedName,
      (schema.settings none).transforms.lookup entry.1 = none := fun entry _ => by
    rw [hcarries.settings_eq]
    rfl
  obtain ⟨validator, hvalidator⟩ := (hcarries.compiles_iff hconfigured).2 (by
    rw [hcarries.settings_eq]
    exact ⟨_, rfl⟩)
  exact ⟨schema, validator, hschema, hvalidator, rfl, _,
    (hcarries.runsChain hne hconfigured hvalidator).validate_eq .null⟩

end Fragment

end SchemaAlgebra
