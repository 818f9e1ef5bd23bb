import SchemaAlgebra.Proofs.Assembly
import SchemaAlgebra.Proofs.Effects
import SchemaAlgebra.Proofs.Locations
import SchemaAlgebra.Proofs.Names
import SchemaAlgebra.Proofs.Once
import SchemaAlgebra.Proofs.Termination

/-!
# Transforms that only look

A transform that returns what it is given may still look at it, and report.  If all transforms of a plan
are of that kind, the run comes to an end with the value it was given, and what each of them sees is
where it says it is.

* `Transform.Observes` — a transform of that kind.
* `Plan.invocations` — the calls of a run with all that the functions called see.
* `Plan.composes_sighted` — in a run of observers, each place holds what it held, and each call is made
  on what stands there.
* `Validator.observers_see_value` — what is seen in a run of observers.

The schema that a transform sees lists its name, with one exception: what is not a string in the list
counts as the empty name.  Such a list is refused in subschemas, but a reference may lead elsewhere;
`looseSchema_lists_no_name` is a schema with one that compiles.
-/

namespace SchemaAlgebra

/-- A transform that returns the value it is given. -/
def Transform.Observes (transform : Transform) : Prop :=
  ∀ context value, (transform context value).outcome = .ok value

lemma Transform.Observes.shallow {transform : Transform} (h : transform.Observes) :
    transform.Shallow := by
  intro context value result hresult
  obtain rfl := Except.ok.inj ((h context value).symm.trans hresult)
  exact Nat.le_refl _

namespace Pointer

/-- The last token of the pointer of a member or item is its key. -/
lemma lastToken_child (base : Pointer) (token : String) : lastToken (child base token) = token := by
  rw [lastToken, toList_child, splitSlashes_append,
    splitSlashes_of_no_slash (slash_not_mem_escapeChars _), List.getLast?_concat]
  simp [unescapeChars_escapeChars]

lemma child_ne_empty (base : Pointer) (token : String) : child base token ≠ "" := by
  intro h
  have hlist := toList_child base token
  rw [h] at hlist
  simp at hlist

end Pointer

/-- The key of a position is the last token of its pointer; the whole value has none. -/
def Position.Keyed (at_ : Position) : Prop :=
  at_.key = if at_.path = "" then none else some (Pointer.lastToken at_.path)

lemma Position.keyed_root (value : Json) : (Position.root value).Keyed := rfl

lemma Position.keyed_child (at_ : Position) (key : String) (current : Json) :
    (at_.child key current).Keyed := by
  simp only [Keyed, child, Pointer.child_ne_empty, if_false, Pointer.lastToken_child]

namespace Plan

open Pass

/-! ## What is seen -/

/-- What a transform is called with. -/
structure Invocation where
  /-- What it sees beside the value. -/
  context : TransformContext
  /-- The value. -/
  value : Json

/-- What the functions of a chain are called with. -/
def invocationsAt (plan : Plan) (event : Event) : List Invocation :=
  let context := fun name : String => (⟨name, event.position.path, event.position.key,
    plan.parentSchema event.node⟩ : TransformContext)
  if event.stage = .chain then
    (runFunctions context (plan.node event.node).chain event.value).inputs.map
      fun (name, input) => ⟨context name, input⟩
  else []

/-- What the functions called in a run are called with. -/
def invocations (plan : Plan) (steps : ℕ) (value : Json) : List Invocation :=
  (plan.traceRun steps value).events.flatMap plan.invocationsAt

variable {plan : Plan}

lemma calls_eq_invocationsAt (event : Event) :
    (plan.callsAt event).map (fun call => (call.instancePath, call.transformation, call.input))
      = (plan.invocationsAt event).map fun invocation =>
        (invocation.context.instancePath, invocation.context.transformation, invocation.value) := by
  unfold callsAt invocationsAt
  split
  · have hcalls : (plan.ranAt event).calls = (runFunctions (fun name => ⟨name, event.position.path,
        event.position.key, plan.parentSchema event.node⟩) (plan.node event.node).chain
          event.value).inputs.map fun (name, input) =>
            ⟨event.node, event.position.path, name, input⟩ := by
      rw [ranAt, runChain, pointer_node]
      split <;> rfl
    rw [hcalls, List.map_map, List.map_map]
    rfl
  · rfl

/-- **The invocations of a run** are its calls, in order. -/
lemma calls_eq_invocations (steps : ℕ) (value : Json) :
    (plan.run steps value).calls.map (fun call => (call.instancePath, call.transformation, call.input))
      = (plan.invocations steps value).map fun invocation =>
        (invocation.context.instancePath, invocation.context.transformation, invocation.value) := by
  rw [calls_run, invocations, List.map_flatMap, List.map_flatMap]
  exact congrArg (List.flatMap · _) (funext calls_eq_invocationsAt)

/-- What a function sees tells of the event of its chain. -/
lemma exists_event_of_mem_invocations {steps : ℕ} {value : Json} {invocation : Invocation}
    (h : invocation ∈ plan.invocations steps value) :
    ∃ event ∈ (plan.traceRun steps value).events,
      invocation.context.key = event.position.key
        ∧ invocation.context.instancePath = event.position.path
        ∧ invocation.context.parentSchema = plan.parentSchema event.node
        ∧ invocation.context.transformation ∈ (plan.node event.node).chain.map Prod.fst := by
  obtain ⟨event, hevent, h⟩ := List.mem_flatMap.1 h
  refine ⟨event, hevent, ?_⟩
  unfold invocationsAt at h
  split at h
  · obtain ⟨⟨name, input⟩, hinput, rfl⟩ := List.mem_map.1 h
    refine ⟨rfl, rfl, rfl, ?_⟩
    exact (names_of_runFunctions _ _ _).1.subset (List.mem_map_of_mem (f := Prod.fst) hinput)
  · exact absurd h List.not_mem_nil

/-! ## Runs of observers -/

/-- All transforms of a plan are observers. -/
def Observes (plan : Plan) : Prop :=
  ∀ node ∈ plan.nodes, ∀ entry ∈ node.chain, entry.2.Observes

lemma Observes.chain (h : plan.Observes) (pointer : Pointer) :
    ∀ entry ∈ (plan.node pointer).chain, entry.2.Observes :=
  forall_mem_chain h pointer

lemma runFunctions_of_observes {chain : Chain} (h : ∀ entry ∈ chain, entry.2.Observes)
    (context : String → TransformContext) (value : Json) :
    (runFunctions context chain value).outcome = .ok value
      ∧ ∀ input ∈ (runFunctions context chain value).inputs, input.2 = value := by
  induction chain with
  | nil => exact ⟨rfl, fun _ hinput => absurd hinput List.not_mem_nil⟩
  | cons entry chain ih =>
    obtain ⟨name, transform⟩ := entry
    obtain ⟨houtcome, hinputs⟩ := ih fun entry hentry => h entry (List.mem_cons_of_mem _ hentry)
    have hcall : (transform (context name) value).outcome = .ok value :=
      h (name, transform) List.mem_cons_self _ _
    simp only [runFunctions, hcall]
    exact ⟨houtcome, List.forall_mem_cons.2 ⟨rfl, hinputs⟩⟩

/-- The calls are made on what stands in a value at their places. -/
def Sighted (whole : Json) (calls : List Call) : Prop :=
  ∀ call ∈ calls, whole.resolve? call.instancePath = some call.input

lemma Sighted.append {whole : Json} {calls more : List Call} (h : Sighted whole calls)
    (hmore : Sighted whole more) : Sighted whole (calls ++ more) :=
  fun call hcall => (List.mem_append.1 hcall).elim (h call) (hmore call)

/-- **Observers change nothing.**  Each place holds what it held in the value, and each call is made on
what stands there. -/
lemma composes_sighted (hobserves : plan.Observes) {whole : Json} (hwf : whole.WellFormed) :
    plan.Composes (· = .exhausted) fun path calls x y =>
      whole.resolve? path = some x → y = x ∧ Sighted whole calls where
  refl := fun _ _ _ => ⟨rfl, fun _ hcall => absurd hcall List.not_mem_nil⟩
  trans := by
    intro path calls more x y z hxy hyz hx
    obtain ⟨rfl, hcalls⟩ := hxy hx
    obtain ⟨rfl, hmore⟩ := hyz hx
    exact ⟨rfl, hcalls.append hmore⟩
  discard := by
    intro path calls more x y z hxy hxz hx
    obtain ⟨rfl, hmore⟩ := hxz hx
    exact ⟨rfl, (hxy hx).2.append hmore⟩
  member := by
    intro path calls key current new before after h hx
    -- keys are distinct, so that the path of the member leads to this one
    have hobject : (Json.object (before ++ (key, current) :: after)).WellFormed := by
      rw [Json.resolve?_eq] at hx
      obtain ⟨way, -, hwalk⟩ := Option.bind_eq_some_iff.1 hx
      exact Json.wellFormed_of_walk? hwf hwalk
    have hlookup : Entries.lookup key (before ++ (key, current) :: after) = some current :=
      Entries.lookup_of_mem hobject.1 (by simp)
    obtain ⟨rfl, hcalls⟩ := h (by
      rw [Pointer.child, Json.resolve?_join, hx, Option.bind_some, Json.walk?_object hlookup,
        Json.walk?_nil])
    exact ⟨rfl, hcalls⟩
  item := by
    intro path calls current new before after h hx
    have hitem : (before ++ current :: after)[before.length]? = some current := by simp
    obtain ⟨rfl, hcalls⟩ := h (by
      rw [Pointer.child, Json.resolve?_join, hx, Option.bind_some, Json.walk?_array hitem,
        Json.walk?_nil])
    exact ⟨rfl, hcalls⟩
  chain := by
    intro pointer at_ value
    obtain ⟨houtcome, hinputs⟩ := runFunctions_of_observes (hobserves.chain pointer) (fun name =>
      ⟨name, at_.path, at_.key, plan.parentSchema (plan.node pointer).outline.pointer⟩) value
    simp only [runChain, houtcome]
    refine ⟨fun result hresult hx => ?_, fun halt hhalt => absurd hhalt (by simp)⟩
    obtain rfl : value = result := Except.ok.inj hresult
    refine ⟨rfl, fun call hcall => ?_⟩
    obtain ⟨⟨name, input⟩, hinput, rfl⟩ := List.mem_map.1 hcall
    rw [hx, hinputs _ hinput]
  budget := rfl

/-- **A run of observers ends** with the value it was given, and calls them on what stands there. -/
lemma run_of_observes (hobserves : plan.Observes) {value : Json} (hwf : value.WellFormed) :
    ∃ run : Pass Json, run.outcome = .ok value ∧ Sighted value run.calls
      ∧ ∃ least, ∀ steps, least ≤ steps → plan.run steps value = run := by
  have hshallow : ∀ node ∈ plan.nodes, ∀ entry ∈ node.chain, entry.2.Shallow :=
    fun node hnode entry hentry => (hobserves node hnode entry hentry).shallow
  obtain ⟨least, hfinished, hleast⟩ := run_ends (settles_of_shallow hshallow) value
  have hrun := (composes_sighted hobserves hwf).run least value
  refine ⟨plan.run least value, ?_⟩
  cases hout : (plan.run least value).outcome with
  | error halt => exact absurd (hrun.error halt hout ▸ hout) hfinished
  | ok result =>
    obtain ⟨rfl, hcalls⟩ := hrun.ok result hout rfl
    exact ⟨rfl, hcalls, least, hleast⟩

/-! ## The schema that is seen -/

/-- The names of a node's chain are listed in its schema, where what is not a string is empty. -/
lemma listed_of_mem_chain {build : MatcherBuilder} {schema : Fragment} {options : Options}
    (h : compile build schema options = .ok plan) {pointer : Pointer} {name : String}
    (hname : name ∈ (plan.node pointer).chain.map Prod.fst) :
    ∃ keywords items, schema.json.resolve? pointer = some (.object keywords)
      ∧ Entries.lookup "transform" keywords = some (.array items)
      ∧ ∃ item ∈ items, (item.string?).getD "" = name := by
  have hpointer : pointer ∈ Outline.nodes schema.json := by
    rcases plan.node_mem_or_eq pointer with ⟨hmem, hpointer⟩ | hnode
    · exact hpointer ▸ pointer_mem_nodes h hmem
    · simp [hnode] at hname
  rw [names_of_chainAt (compiled_node h hpointer).2.chain, transformNames] at hname
  cases hkeywords : Outline.keywordsAt? schema.json pointer with
  | none => simp [hkeywords] at hname
  | some keywords =>
    rw [hkeywords, Option.bind_some] at hname
    split at hname
    · rename_i items hitems
      exact ⟨keywords, items, Outline.resolve?_of_keywordsAt? hkeywords, hitems,
        List.mem_map.1 hname⟩
    · exact absurd hname List.not_mem_nil

/-- If all functions configured and carried only look, those of the plan do. -/
lemma observes_of_compile {build : MatcherBuilder} {schema : Fragment} {options : Options}
    (h : compile build schema options = .ok plan)
    (hconfigured : ∀ name transform, options.transforms.lookup name = some transform →
      transform.Observes)
    (hcarried : ∀ pointer record table name transform, schema.recordAt? pointer = some record →
      record.transforms = some table → table.lookup name = some transform → transform.Observes) :
    plan.Observes := by
  intro node hnode entry hentry
  obtain ⟨pointer, -, hcompiled⟩ := (compile_ok h).2.2 node hnode
  obtain ⟨items, hitems, -⟩ := resolveChain_of_chainAt hcompiled.chain
  have hmem := List.mem_map_of_mem (f := some) hentry
  rw [some_of_resolveChain hitems] at hmem
  obtain ⟨name, -, hfunction⟩ := List.mem_map.1 hmem
  obtain ⟨transform, htransform, rfl⟩ := Option.map_eq_some_iff.1 hfunction
  rcases Option.or_eq_some_iff.1 htransform with hfound | ⟨-, hfound⟩
  · exact hconfigured name transform hfound
  · obtain ⟨table, htable, hfound⟩ := Option.bind_eq_some_iff.1 hfound
    obtain ⟨record, hrecord, htable⟩ := Option.bind_eq_some_iff.1 htable
    exact hcarried pointer record table name transform hrecord htable hfound

end Plan

lemma string_of_mem_namesOfItems? {items : List Json} {names : List String}
    (h : namesOfItems? items = some names) : ∀ item ∈ items, ∃ name, item = .string name := by
  induction items generalizing names with
  | nil => exact fun _ hitem => absurd hitem List.not_mem_nil
  | cons item items ih =>
    rw [namesOfItems?, List.mapM_cons] at h
    obtain ⟨name, hname, h⟩ := Option.bind_eq_some_iff.1 h
    obtain ⟨rest, hrest, -⟩ := Option.bind_eq_some_iff.1 h
    refine List.forall_mem_cons.2 ⟨⟨name, ?_⟩, ih hrest⟩
    cases item <;> simp_all [Json.string?]

/-- Where names are checked, they are strings. -/
lemma Fragment.strings_of_checkNames {f : Fragment} {options : Options} {registry : Registry}
    (h : f.checkNames options registry = .ok ()) {entry : Pointer × Entries Json}
    (hentry : entry ∈ f.json.subschemas) {items : List Json}
    (hitems : Entries.lookup "transform" entry.2 = some (.array items)) :
    ∀ item ∈ items, ∃ name, item = .string name := by
  obtain ⟨names, hnames, -⟩ :=
    exists_names_of_checkTransforms (checkTransforms_of_checkNames h hentry) hitems
  exact string_of_mem_namesOfItems? hnames

namespace Validator

/-- **Transforms that only look.**  If all transforms return what they are given, the run ends with the
value it was given.  Each call is made on what stands at its path in the value, with the last token of
the path as its key, and with an object of the document as its schema, which lists the name called by;
only where the schema is no subschema of the document, something that is not a string may be listed in
place of the empty name. -/
theorem observers_see_value {schema : Fragment} {options : Option Options} {validator : Validator}
    {value : Json} (h : compile schema options = .ok validator)
    (hobserves : validator.plan.Observes) (hwf : value.WellFormed) :
    ∃ run : Pass Json, run.outcome = .ok value ∧ ∃ least, ∀ steps, least ≤ steps →
      validator.plan.run steps value = run
      ∧ ∀ invocation ∈ validator.plan.invocations steps value,
        value.resolve? invocation.context.instancePath = some invocation.value
        ∧ invocation.context.key = (if invocation.context.instancePath = "" then none
          else some (Pointer.lastToken invocation.context.instancePath))
        ∧ ∃ pointer keywords items, validator.document.resolve? pointer = some (.object keywords)
          ∧ invocation.context.parentSchema = .object keywords
          ∧ Entries.lookup "transform" keywords = some (.array items)
          ∧ (.string invocation.context.transformation ∈ items
            ∨ invocation.context.transformation = "" ∧ (∃ item ∈ items, item.string? = none)
              ∧ (pointer, keywords) ∉ validator.document.subschemas) := by
  obtain ⟨extensions, -, hcompile⟩ := bind_eq_ok.1 h
  obtain ⟨_, hnames, hcompile⟩ := bind_eq_ok.1 hcompile
  obtain ⟨_, _, -, hplan⟩ := compile_ok h
  have hdocument : validator.plan.document = schema.json := (Plan.compile_ok hplan).1
  obtain ⟨run, houtcome, hsighted, least, hleast⟩ := Plan.run_of_observes hobserves hwf
  refine ⟨run, houtcome, least, fun steps hsteps => ⟨hleast steps hsteps, ?_⟩⟩
  intro invocation hinvocation
  obtain ⟨event, hevent, hkey, hpath, hschema, hname⟩ :=
    Plan.exists_event_of_mem_invocations hinvocation
  refine ⟨?_, ?_, ?_⟩
  · have hmem := List.mem_map_of_mem (f := fun invocation : Plan.Invocation =>
      (invocation.context.instancePath, invocation.context.transformation, invocation.value)) hinvocation
    rw [← Plan.calls_eq_invocations, hleast steps hsteps] at hmem
    obtain ⟨call, hcall, hsame⟩ := List.mem_map.1 hmem
    obtain ⟨hplace, -, hinput⟩ : call.instancePath = _ ∧ _ ∧ call.input = _ := by simpa using hsame
    rw [← hplace, ← hinput]
    exact hsighted call hcall
  · rw [hkey, hpath]
    exact validator.plan.every_traceRun steps value (R := Position.Keyed) (Position.keyed_root value)
      (fun at_ key current _ => at_.keyed_child key current) event hevent
  · obtain ⟨keywords, items, hresolve, hitems, item, hitem, hlisted⟩ :=
      Plan.listed_of_mem_chain hplan hname
    refine ⟨event.node, keywords, items, by rw [document, hdocument, hresolve], ?_, hitems, ?_⟩
    · rw [hschema, Plan.parentSchema, hdocument, hresolve, Option.getD_some]
    cases hstring : item.string? with
    | some name =>
      rw [hstring, Option.getD_some] at hlisted
      subst hlisted
      refine Or.inl ?_
      cases item <;> simp_all [Json.string?]
    | none =>
      rw [hstring, Option.getD_none] at hlisted
      refine Or.inr ⟨hlisted.symm, ⟨item, hitem, hstring⟩, fun hsub => ?_⟩
      rw [document, hdocument] at hsub
      obtain ⟨name, rfl⟩ := Fragment.strings_of_checkNames hnames hsub hitems item hitem
      simp [Json.string?] at hstring

/-- A transform that makes a complaint. -/
def tattle : Transform :=
  fun context value => { issues := [context.issue "seen" none], outcome := .ok value }

/-- Options with the transform, under a name. -/
def tattleOptions (name : String) : Options where
  transforms := ⟨[(name, tattle)], List.pairwise_singleton _ _⟩

lemma observes_tattle {schema : Fragment} {name : String} {validator : Validator}
    (h : compile schema (some (tattleOptions name)) = .ok validator)
    (hrecords : schema.records = .empty) : validator.plan.Observes := by
  obtain ⟨_, _, -, hplan⟩ := compile_ok h
  have hbare : ∀ pointer, schema.recordAt? pointer = none := by
    intro pointer
    rw [Fragment.recordAt?, hrecords]
    rfl
  refine Plan.observes_of_compile hplan (fun key transform hfound => ?_) fun pointer record _ _ _ h => ?_
  · have hoptions : schema.options? = none := by rw [Fragment.options?, Fragment.root?, hbare]; rfl
    rw [hoptions] at hfound
    change (if name = key then some tattle else none) = some transform at hfound
    split at hfound
    · exact Option.some.inj hfound ▸ fun _ _ => rfl
    · simp at hfound
  · rw [hbare] at h
    simp at h

/-- A schema whose items are looked at. -/
def watchedSchema : Fragment where
  keywords :=
    [("additionalProperties", .object [("items", .object [("transform", .array [.string "t"])])])]

/-- A value with a key that has to be escaped. -/
def watchedValue : Json :=
  .object [("a/b", .array [.int 1, .null])]

/-- The items of the member are seen where they are. -/
theorem watchedSchema_seen : ∃ validator, compile watchedSchema (some (tattleOptions "t")) = .ok validator
    ∧ validator.plan.Observes ∧ watchedValue.WellFormed
    ∧ ∃ run : Pass Json, run.outcome = .ok watchedValue ∧ ∃ least, ∀ steps, least ≤ steps →
      validator.plan.run steps watchedValue = run
      ∧ ∀ invocation ∈ validator.plan.invocations steps watchedValue,
        watchedValue.resolve? invocation.context.instancePath = some invocation.value
        ∧ invocation.context.key = (if invocation.context.instancePath = "" then none
          else some (Pointer.lastToken invocation.context.instancePath))
        ∧ ∃ pointer keywords items, validator.document.resolve? pointer = some (.object keywords)
          ∧ invocation.context.parentSchema = .object keywords
          ∧ Entries.lookup "transform" keywords = some (.array items)
          ∧ (.string invocation.context.transformation ∈ items
            ∨ invocation.context.transformation = "" ∧ (∃ item ∈ items, item.string? = none)
              ∧ (pointer, keywords) ∉ validator.document.subschemas) := by
  obtain ⟨validator, h⟩ := exists_of_isOk (x := compile watchedSchema (some (tattleOptions "t")))
    (by decide +kernel)
  have hobserves := observes_tattle h rfl
  have hwf : watchedValue.WellFormed := by
    simp [watchedValue, Json.WellFormed, Json.MembersWellFormed, Json.AllWellFormed, Entries.Sorted]
  exact ⟨validator, h, hobserves, hwf, observers_see_value h hobserves hwf⟩

/-- A schema that refers to a place where no schema is, from beside another reference. -/
def looseSchema : Fragment where
  keywords :=
    [("$ref", .string "#/definitions/a"), ("definitions", .object [("a", .object [])]),
      ("foo", .object [("transform", .array [.int 5])]),
      ("properties", .object [("x", .object [("$ref", .string "#/foo")])])]

/-- The transform is called by the empty name, though the schema it sees lists no name at all. -/
theorem looseSchema_lists_no_name :
    ∃ validator, compile looseSchema (some (tattleOptions "")) = .ok validator
      ∧ validator.plan.Observes
      ∧ ∃ invocation ∈ validator.plan.invocations 8 (.object [("x", .int 1)]),
        invocation.context.transformation = ""
        ∧ invocation.context.parentSchema = .object [("transform", .array [.int 5])] := by
  have hfacts : (match compile looseSchema (some (tattleOptions "")) with
      | .ok validator => (validator.plan.invocations 8 (.object [("x", .int 1)])).any
        fun invocation => decide (invocation.context.transformation = ""
          ∧ invocation.context.parentSchema = .object [("transform", .array [.int 5])])
      | .error _ => false) = true := by
    decide +kernel
  split at hfacts
  · rename_i validator h
    obtain ⟨invocation, hinvocation, hseen⟩ := List.any_eq_true.1 hfacts
    exact ⟨validator, h, observes_tattle h rfl, invocation, hinvocation, of_decide_eq_true hseen⟩
  · simp at hfacts

end Validator

end SchemaAlgebra
