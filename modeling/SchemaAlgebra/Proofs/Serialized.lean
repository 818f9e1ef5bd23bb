import SchemaAlgebra.Combinator.Instance
import SchemaAlgebra.Proofs.Keywords

/-!
# Schemas of serialized instances

The schema of serialized instances is a union: of the objects that a class says are its instances, and of
the values of a kind, with a transform that carries the construction.  In every dialect

* `Fragment.isSerialized_of_ok` — the combinator writes this union, and enters the transform under the
  pointer of its second member;
* `Matcher.passes_either` — its matcher accepts the instances that are objects, and the values of the
  kind;
* `Fragment.IsSerialized.compilesWith` — it compiles where its class is known.
-/

namespace SchemaAlgebra

/-! ## The schema -/

namespace Fragment

/-- The keywords of the schema of instances of a class. -/
def instanceKeywords (name : String) : Entries Json :=
  [("instanceOf", .string name), ("properties", .object []), ("type", .string "object")]

/-- The keywords of the schema of serialized forms of a kind. -/
def formKeywords (name : String) (kind : Kind) : Entries Json :=
  [("transform", .array [.string name]), ("type", .string kind.name)]

/-- The keywords of the union of both. -/
def eitherKeywords (name : String) (kind : Kind) : Entries Json :=
  [("anyOf", .array [.object (instanceKeywords name), .object (formKeywords name kind)])]

/-- A schema of instances of the class called `name` and of their serialized forms, of which it carries
the function that rewrites the latter. -/
structure IsSerialized (f : Fragment) (name : String) (kind : Kind) (run : Transform) : Prop where
  keywords : f.keywords = eitherKeywords name kind
  options : f.options? = none
  carried : ((f.recordAt? "/anyOf/1").bind Metadata.transforms).bind (·.lookup name) = some run

variable {cls : ClassRef} {given : Option (Json → Except TransformError Json)} {kind : Kind}
  {schema : Fragment} {name : String} {run : Transform}

/-- The record that the schema of instances has of itself. -/
def instanceRecord : ClassRef → Entries Metadata
  | .named _ => []
  | .carried cls => [("", { constructors := some (Class.table [cls]) })]

lemma instanceOf_ok {f : Fragment} (h : instanceOf cls = .ok f) :
    f.keywords = instanceKeywords cls.name ∧ f.records.entries = instanceRecord cls := by
  unfold instanceOf at h
  split at h
  · simp at h
  · cases cls with
    | named name =>
      obtain rfl := Except.ok.inj h
      exact ⟨rfl, rfl⟩
    | carried cls =>
      obtain rfl := Except.ok.inj h
      exact ⟨rfl, rfl⟩

lemma withTransforms_ok {f : Fragment} (h : (ofKind kind).withTransforms [.inlined name run] = .ok f) :
    f.keywords = formKeywords name kind
      ∧ f.records.entries = [("", { transforms := some (Table.empty.enter [(name, run)]) })] := by
  unfold withTransforms at h
  split at h
  · simp at h
  · obtain rfl := Except.ok.inj h
    exact ⟨rfl, rfl⟩

lemma wellPlaced_of_root {f : Fragment} (h : ∀ entry ∈ f.records.entries, entry.1 = "") :
    f.WellPlaced := fun entry hentry => by
  rw [h entry hentry]
  exact Pointer.rooted_join []

/-- **The schema of serialized instances** carries the function that constructs them. -/
lemma isSerialized_of_ok (h : serializedInstanceOf cls given kind = .ok schema) :
    ∃ construct, constructorOf cls given = .ok construct
      ∧ schema.IsSerialized cls.name kind (deserialize construct kind) := by
  obtain ⟨live, hlive, h⟩ := bind_eq_ok.1 h
  obtain ⟨construct, hconstruct, h⟩ := bind_eq_ok.1 h
  obtain ⟨form, hform, h⟩ := bind_eq_ok.1 h
  obtain rfl := Except.ok.inj h
  obtain ⟨hliveKeywords, hliveRecords⟩ := instanceOf_ok hlive
  obtain ⟨hformKeywords, hformRecords⟩ := withTransforms_ok hform
  have hplaced : ∀ member ∈ [live, form], member.WellPlaced := by
    refine List.forall_mem_cons.2 ⟨wellPlaced_of_root fun entry hentry => ?_,
      List.forall_mem_singleton.2 (wellPlaced_of_root fun entry hentry => ?_)⟩
    · rw [hliveRecords] at hentry
      cases cls <;> simp_all [instanceRecord]
    · simp_all
  refine ⟨construct, hconstruct, ?_, ?_, ?_⟩
  · rw [anyOf, withMembers_eq, eitherKeywords, ← hliveKeywords, ← hformKeywords]
    rfl
  · rw [options?, anyOf, root?_withMembers empty "anyOf" hplaced]
    rfl
  · have hpart : (Pointer.indexToken 1, form) ∈ numbered [live, form] := mem_numbered.2 ⟨1, rfl, rfl⟩
    have hcarried : (anyOf [live, form]).transformsOn ["anyOf", Pointer.indexToken 1]
        = form.transformsOn [] := by
      rw [transformsOn, anyOf, withMembers_eq]
      exact transformsIn_adoptAll (placed_numbered hplaced) (nodup_numbered _) hpart rfl
    have hown : form.transformsOn []
        = some (Table.empty.enter [(cls.name, deserialize construct kind)]) := by
      rw [transformsOn, transformsIn, Table.lookup, hformRecords]
      rfl
    have hat : Pointer.join "" ["anyOf", Pointer.indexToken 1] = "/anyOf/1" := by decide
    rw [hown, transformsOn, transformsIn, hat] at hcarried
    rw [recordAt?, hcarried]
    exact Entries.lookup_insert_self ..

end Fragment

/-! ## What its matcher demands -/

namespace Matcher

open Fragment (instanceKeywords formKeywords eitherKeywords)

variable {m : Matcher} {judge : Judge} {scope : Scope} {keywords : Entries Json} {value : Json}
  {steps : ℕ} {name : String} {kind : Kind} {C : Class}

lemma hasType_kind (draft : Draft) (kind : Kind) :
    hasType draft value kind.name = true ↔ Kind.of value = kind := by
  cases kind <;> cases value <;> simp [hasType, Kind.name, Kind.of]

lemma allows_kind (kind : Kind) :
    m.Allows judge scope keywords ("type", .string kind.name) value ↔ Kind.of value = kind := by
  rw [allows_iff_of_shape (by decide) (Draft.isSome_shape? _ _ (by decide)) (by decide),
    ← hasType_kind scope.draft]
  simp [assert, require_eq_nil, typesOf, apply]

lemma contains_of_get? {registry : Registry} (h : registry.get? name = some C) :
    registry.contains name = true := by
  rw [Registry.contains, Table.contains, Entries.contains_eq_isSome]
  exact Option.isSome_of_eq_some h

/-- An instance of the class is an object, and the class says that it is one. -/
lemma passes_instance (hclass : m.registry.get? name = some C) :
    m.Passes (steps + 1) scope (.object (instanceKeywords name)) value
      ↔ value.isObject = true ∧ C.isInstance value = true := by
  have hcontains := contains_of_get? hclass
  have hinstance : ∀ judge scope, m.Allows judge scope (instanceKeywords name)
      ("instanceOf", .string name) value ↔ C.isInstance value = true := by
    intro judge scope
    simp [Allows, keywordViolations, Assertion.read?, Assertion.readInstanceOf, namesOf?, hcontains,
      Assertion.holds, Registry.isInstanceOfAny, hclass, require_eq_nil]
  have hproperties : ∀ judge scope, m.Allows judge scope (instanceKeywords name)
      ("properties", .object []) value := by
    intro judge scope
    rw [allows_iff_of_shape (by decide) (Draft.isSome_shape? _ _ (by decide)) (by decide)]
    cases value <;> simp [assert, apply, properties, Json.members?]
  have hobject : ∀ judge scope, m.Allows judge scope (instanceKeywords name)
      ("type", .string "object") value ↔ value.isObject = true := by
    intro judge scope
    refine (allows_kind .object).trans ?_
    cases value <;> simp [Kind.of, Json.isObject]
  rw [passes_iff_allows rfl, instanceKeywords, List.forall_mem_cons, List.forall_mem_cons,
    List.forall_mem_singleton, ← instanceKeywords, hinstance, hobject]
  constructor
  · rintro ⟨h, -, h'⟩
    exact ⟨h', h⟩
  · rintro ⟨h, h'⟩
    exact ⟨h', hproperties _ _, h⟩

/-- A serialized form is of its kind. -/
lemma passes_form : m.Passes (steps + 1) scope (.object (formKeywords name kind)) value
    ↔ Kind.of value = kind := by
  have htransform : ∀ judge scope, m.Allows judge scope (formKeywords name kind)
      ("transform", .array [.string name]) value := by
    intro judge scope
    simp [Allows, keywordViolations, Assertion.read?, Assertion.readTransform, namesOfItems?,
      Json.string?, Assertion.holds, require]
  rw [passes_iff_allows rfl, formKeywords, List.forall_mem_cons, List.forall_mem_singleton,
    ← formKeywords, allows_kind]
  exact and_iff_right (htransform _ _)

/-- The union asks for either. -/
lemma passes_either (hclass : m.registry.get? name = some C) :
    m.Passes (steps + 2) scope (.object (eitherKeywords name kind)) value
      ↔ (value.isObject = true ∧ C.isInstance value = true) ∨ Kind.of value = kind := by
  rw [passes_iff_allows rfl, eitherKeywords, List.forall_mem_singleton, allows_anyOf,
    List.exists_mem_cons_iff, List.exists_mem_cons_iff]
  simp only [List.not_mem_nil, false_and, exists_const, or_false]
  exact or_congr (passes_instance hclass) passes_form

/-! ## Its matchers -/

/-- All that a schema leads to is without fault, and nothing. -/
def Silent (m : Matcher) (place : Place) : Prop :=
  place.2.isObject = true ∧ ∀ lead ∈ m.leads place, lead = .nothing ∨ lead = .schemas [] []

lemma Silent.isSound_of_leads {place next : Place} (h : m.Silent place)
    (hleads : Graph.Leads m.successors place next) : m.isSound next = true := by
  have hparts : m.parts place = [] := by
    refine List.eq_nil_iff_forall_not_mem.2 fun part hpart => ?_
    obtain ⟨patterns, schemas, hlead, hschema, -⟩ := mem_parts.1 hpart
    rcases h.2 _ hlead with hlead | hlead <;> simp_all
  have htexts : m.texts place = [] := by
    refine List.eq_nil_iff_forall_not_mem.2 fun text htext => ?_
    rcases h.2 _ (mem_texts.1 htext) with hlead | hlead <;> simp at hlead
  have hsuccessors : m.successors place = [] := by
    rw [successors, hparts, targets, htexts]
    rfl
  rcases hleads.cases_head with rfl | ⟨other, hother, -⟩
  · rw [isSound, h.1, Bool.true_or, Bool.true_and, List.all_eq_true]
    intro lead hlead
    rcases h.2 _ hlead with rfl | rfl <;> rfl
  · have hother : other ∈ m.successors place := hother
    rw [hsuccessors] at hother
    exact absurd hother List.not_mem_nil

lemma silent_instance (hclass : m.registry.get? name = some C) (scope : Scope) :
    m.Silent (scope, .object (instanceKeywords name)) := by
  refine ⟨rfl, fun lead hlead => ?_⟩
  obtain ⟨entry, hentry, rfl⟩ := mem_leads_object.1 hlead
  have hentry := mem_of_mem_effectiveKeywords hentry
  simp only [instanceKeywords, List.mem_cons, List.not_mem_nil, or_false] at hentry
  rcases hentry with rfl | rfl | rfl
  · have hcontains : m.registry.contains name = true := contains_of_get? hclass
    simp [Matcher.lead, Assertion.read?, Assertion.readInstanceOf, namesOf?, hcontains]
  · rw [lead_of_shape (by decide) (Draft.isSome_shape? _ _ (by decide)) (by decide)]
    exact Or.inr rfl
  · rw [lead_of_shape (by decide) (Draft.isSome_shape? _ _ (by decide)) (by decide)]
    exact Or.inr rfl

lemma silent_form (scope : Scope) : m.Silent (scope, .object (formKeywords name kind)) := by
  refine ⟨rfl, fun lead hlead => ?_⟩
  obtain ⟨entry, hentry, rfl⟩ := mem_leads_object.1 hlead
  have hentry := mem_of_mem_effectiveKeywords hentry
  simp only [formKeywords, List.mem_cons, List.not_mem_nil, or_false] at hentry
  rcases hentry with rfl | rfl
  · exact Or.inl rfl
  · rw [lead_of_shape (by decide) (Draft.isSome_shape? _ _ (by decide)) (by decide)]
    exact Or.inr rfl

lemma leads_either (m : Matcher) (scope : Scope) :
    m.leads (scope, .object (eitherKeywords name kind))
      = [.schemas [] [.object (instanceKeywords name), .object (formKeywords name kind)]] := by
  have heffective : effectiveKeywords (scope.enter (eitherKeywords name kind)).draft
      (eitherKeywords name kind) = eitherKeywords name kind := by
    rw [effectiveKeywords, show Draft.reference? (eitherKeywords name kind) = none from rfl,
      Option.isSome_none, Bool.and_false, if_neg Bool.false_ne_true]
  change (effectiveKeywords (scope.enter (eitherKeywords name kind)).draft
    (eitherKeywords name kind)).map _ = _
  rw [heffective]
  exact congrArg (· :: []) (lead_of_shape (by decide) (Draft.isSome_shape? _ _ (by decide)) (by decide))

/-- Both members of the union are sound, and so is the union. -/
lemma isSound_either (hclass : m.registry.get? name = some C) {next : Place}
    (hleads : Graph.Leads m.successors (scope, .object (eitherKeywords name kind)) next) :
    m.isSound next = true := by
  rcases hleads.cases_head with rfl | ⟨other, hother, hleads⟩
  · rw [isSound, leads_either]
    rfl
  · have hother : other ∈ m.successors (scope, .object (eitherKeywords name kind)) := hother
    rw [successors, parts, targets, texts, leads_either] at hother
    simp only [List.flatMap_cons, List.map_cons, List.map_nil, List.flatMap_nil, List.append_nil,
      List.filterMap_cons, List.filterMap_nil, List.mem_cons, List.not_mem_nil, or_false] at hother
    rcases hother with rfl | rfl
    · exact (silent_instance hclass _).isSound_of_leads hleads
    · exact (silent_form _).isSound_of_leads hleads

section

variable {options : MatcherOptions} {extensions : List Extension} {registry : Registry}

lemma exists_build {keywords : Entries Json}
    (hschema : options.effectiveDraft.isSchema (.object keywords) = true)
    (hclosed : (Document.ofJson options.effectiveDraft (.object keywords)).isClosed = true)
    (hannounced : Entries.erase "$schema" keywords = keywords)
    (hsound : ∀ m : Matcher, m.registry = registry → ∀ next,
      Graph.Leads m.successors (⟨options.effectiveDraft, Document.defaultBase⟩, .object keywords) next →
        m.isSound next = true) :
    ∃ m, build options extensions registry (.object keywords) = .ok m := by
  refine ⟨_, Plan.build_eq_ok_iff.2 ⟨rfl, check_eq_ok_iff.2 ⟨hschema, hclosed, ?_⟩⟩⟩
  have hroot : (Document.ofJson options.effectiveDraft (.object keywords)).root = .object keywords :=
    congrArg Json.object hannounced
  rw [hroot]
  exact reach_ok (hsound _ rfl) _ _

lemma exists_build_instance (hclass : registry.get? name = some C) :
    ∃ m, build options extensions registry (.object (instanceKeywords name)) = .ok m := by
  refine exists_build ?_ ?_ rfl fun m hm next => (silent_instance (hm ▸ hclass) _).isSound_of_leads
  · cases options.effectiveDraft <;> rfl
  · cases options.effectiveDraft <;> rfl

lemma exists_build_form :
    ∃ m, build options extensions registry (.object (formKeywords name kind)) = .ok m := by
  refine exists_build ?_ ?_ rfl fun m _ next => (silent_form _).isSound_of_leads
  · cases options.effectiveDraft <;> cases kind <;> rfl
  · cases options.effectiveDraft <;> rfl

lemma exists_build_either (hclass : registry.get? name = some C) :
    ∃ m, build options extensions registry (.object (eitherKeywords name kind)) = .ok m := by
  refine exists_build ?_ ?_ rfl fun m hm next => isSound_either (hm ▸ hclass)
  · cases options.effectiveDraft <;> cases kind <;> rfl
  · cases options.effectiveDraft <;> rfl

end

end Matcher

/-! ## Its plan -/

namespace Outline

variable {document : Json} {name : String} {kind : Kind}

lemma read_either : read (.object (Fragment.eitherKeywords name kind)) ""
    = { pointer := "", branches := ["/anyOf/0", "/anyOf/1"] } := by
  have hlisted : listed "" (Fragment.eitherKeywords name kind) "anyOf" = ["/anyOf/0", "/anyOf/1"] := by
    change [Pointer.join "" ["anyOf", Pointer.indexToken 0],
      Pointer.join "" ["anyOf", Pointer.indexToken 1]] = _
    decide
  rw [read_of_keywordsAt? (show keywordsAt? _ _ = some (Fragment.eitherKeywords name kind) from rfl),
    ofKeywords, hlisted]
  simp [named, single?, itemRule, isListed, itemsBeyond?, listed, Fragment.eitherKeywords,
    Entries.lookup, Entries.contains, Json.localTarget?]

lemma read_instance : read (.object (Fragment.eitherKeywords name kind)) "/anyOf/0"
    = { pointer := "/anyOf/0" } := by
  rw [read_of_keywordsAt? (show keywordsAt? _ _ = some (Fragment.instanceKeywords name) from rfl)]
  simp [ofKeywords, named, single?, itemRule, isListed, itemsBeyond?, listed,
    Fragment.instanceKeywords, Entries.lookup, Entries.contains, Entries.keys, Json.localTarget?]

lemma read_form : read (.object (Fragment.eitherKeywords name kind)) "/anyOf/1"
    = { pointer := "/anyOf/1" } := by
  rw [read_of_keywordsAt? (show keywordsAt? _ _ = some (Fragment.formKeywords name kind) from rfl)]
  simp [ofKeywords, named, single?, itemRule, isListed, itemsBeyond?, listed,
    Fragment.formKeywords, Entries.lookup, Entries.contains, Json.localTarget?]

lemma edges_either : edges (.object (Fragment.eitherKeywords name kind)) ""
    = ["/anyOf/0", "/anyOf/1"] := by
  rw [edges, read_either]
  rfl

/-- The nodes are the union and its members. -/
lemma mem_nodes_either {pointer : Pointer} :
    pointer ∈ nodes (.object (Fragment.eitherKeywords name kind))
      ↔ pointer = "" ∨ pointer = "/anyOf/0" ∨ pointer = "/anyOf/1" := by
  rw [mem_nodes_iff]
  constructor
  · intro hleads
    induction hleads with
    | refl => exact Or.inl rfl
    | @tail before after _ hedge ih =>
      have hedge : after ∈ edges _ before := hedge
      rcases ih with rfl | rfl | rfl
      · rw [edges_either] at hedge
        simpa using Or.inr hedge
      · rw [edges, read_instance] at hedge
        exact absurd hedge List.not_mem_nil
      · rw [edges, read_form] at hedge
        exact absurd hedge List.not_mem_nil
  · have hedge : ∀ pointer ∈ ["/anyOf/0", "/anyOf/1"],
        Graph.Leads (edges (.object (Fragment.eitherKeywords name kind))) "" pointer :=
      fun pointer hpointer => .single (show pointer ∈ edges _ "" by rwa [edges_either])
    rintro (rfl | rfl | rfl)
    · exact .refl
    · exact hedge _ (by decide)
    · exact hedge _ (by decide)

end Outline

namespace Fragment

open Plan

variable {f : Fragment} {name : String} {kind : Kind} {run : Transform} {options : Option Options}
  {C : Class} {extensions : List Extension}

lemma branchDocument_instance : branchDocument (.object (eitherKeywords name kind)) "/anyOf/0"
    = .object (instanceKeywords name) :=
  rfl

lemma branchDocument_form : branchDocument (.object (eitherKeywords name kind)) "/anyOf/1"
    = .object (formKeywords name kind) :=
  rfl

section

variable (h : f.IsSerialized name kind run)

include h

lemma IsSerialized.json_eq : f.json = .object (eitherKeywords name kind) := by
  rw [json, h.keywords]

lemma IsSerialized.settings_eq : f.settings options = Options.merged none options := by
  rw [settings, h.options]

/-- The transform of serialized forms is a configured one, or else the one that is carried. -/
lemma IsSerialized.exists_transform (settings : Options) :
    ∃ transform, transform? f settings "/anyOf/1" name = some transform := by
  rw [← Option.isSome_iff_exists, transform?, h.carried]
  cases settings.transforms.lookup name <;> rfl

/-- The names in the schema are known. -/
lemma IsSerialized.checkNames (settings : Options) {registry : Registry}
    (hclass : registry.get? name = some C) : f.checkNames settings registry = .ok () := by
  have hcontains := Matcher.contains_of_get? hclass
  have hknown : f.knowsTransform settings "/anyOf/1" name = true := by
    rw [knowsTransform_eq]
    exact Option.isSome_iff_exists.2 (h.exists_transform settings)
  have hsubschemas : f.json.subschemas = [("", eitherKeywords name kind),
      ("/anyOf/0", instanceKeywords name), ("/anyOf/1", formKeywords name kind)] := by
    rw [h.json_eq]
    rfl
  have hinstance : checkClasses registry "/anyOf/0" (instanceKeywords name) = .ok () := by
    simp [checkClasses, instanceKeywords, Assertion.readInstanceOf, namesOf?, hcontains]
  have hform : f.checkTransforms settings "/anyOf/1" (formKeywords name kind) = .ok () := by
    simp [checkTransforms, formKeywords, Json.items?, namesOfItems?, Json.string?, hknown]
  rw [Fragment.checkNames, hsubschemas]
  refine bind_eq_ok.2 ⟨(), rfl, bind_eq_ok.2 ⟨(), ?_, bind_eq_ok.2 ⟨(), ?_, rfl⟩⟩⟩
  · exact bind_eq_ok.2 ⟨(), hinstance, rfl⟩
  · exact bind_eq_ok.2 ⟨(), rfl, hform⟩

/-- The chains of its nodes: only the serialized form has a transform. -/
lemma IsSerialized.chainAt_form {settings : Options} {transform : Transform}
    (htransform : transform? f settings "/anyOf/1" name = some transform) :
    chainAt f settings f.json "/anyOf/1" = .ok [(name, transform)] := by
  have hkeywords : Outline.keywordsAt? f.json "/anyOf/1" = some (formKeywords name kind) := by
    rw [h.json_eq]
    rfl
  have hplaced : misplaced? "/anyOf/1" (formKeywords name kind) = none := rfl
  rw [chainAt, hkeywords]
  dsimp only
  rw [hplaced]
  simp [formKeywords, resolveChain, Json.string?, htransform, bind, Except.bind, pure, Except.pure]

lemma IsSerialized.chainAt_other {settings : Options} {pointer : Pointer}
    (hpointer : pointer = "" ∨ pointer = "/anyOf/0") :
    chainAt f settings f.json pointer = .ok [] := by
  rw [h.json_eq]
  rcases hpointer with rfl | rfl <;> rfl

/-- It has a plan. -/
lemma IsSerialized.exists_plan {settings : Options} {registry : Registry}
    (hclass : registry.get? name = some C) :
    ∃ plan, compile (Matcher.build settings.matcher extensions registry) f settings = .ok plan := by
  obtain ⟨transform, htransform⟩ := h.exists_transform settings
  have hbranches : ∀ branch ∈ ["/anyOf/0", "/anyOf/1"], ∃ matcher,
      Matcher.build settings.matcher extensions registry (branchDocument f.json branch)
        = .ok matcher := by
    rw [h.json_eq]
    refine List.forall_mem_cons.2 ⟨Matcher.exists_build_instance hclass,
      List.forall_mem_singleton.2 Matcher.exists_build_form⟩
  refine exists_plan_iff.2 fun pointer hpointer => ?_
  rw [h.json_eq] at hpointer
  rcases Outline.mem_nodes_either.1 hpointer with rfl | rfl | rfl
  · refine ⟨⟨[], h.chainAt_other (Or.inl rfl)⟩, ?_⟩
    rw [h.json_eq] at hbranches ⊢
    constructor
    · rw [Outline.read_either]
      nofun
    · rw [Outline.read_either]
      exact fun _ => hbranches
    · rw [Outline.read_either]
      nofun
  · refine ⟨⟨[], h.chainAt_other (Or.inr rfl)⟩, buildable_of_read ?_⟩
    rw [h.json_eq, Outline.read_instance]
  · refine ⟨⟨_, h.chainAt_form htransform⟩, buildable_of_read ?_⟩
    rw [h.json_eq, Outline.read_form]

/-- **It compiles** if the class is known and the keywords to enable are. -/
lemma IsSerialized.compilesWith (hclass : (f.registry options).get? name = some C)
    (hresolve : Extension.resolve (f.settings options).keywords = .ok extensions) :
    f.CompilesWith options extensions where
  resolve := hresolve
  names := h.checkNames _ hclass
  check := by
    have hbuild : ∃ m, Matcher.build (f.settings options).matcher extensions (f.registry options)
        (.object (eitherKeywords name kind)) = .ok m := Matcher.exists_build_either hclass
    obtain ⟨m, hm⟩ := hbuild
    obtain ⟨rfl, hcheck⟩ := build_eq_ok_iff.1 hm
    rw [matcherWith, h.json_eq]
    exact hcheck
  plan := h.exists_plan hclass

end

end Fragment

end SchemaAlgebra
