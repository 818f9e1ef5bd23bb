import SchemaAlgebra.Proofs.Acceptance
import SchemaAlgebra.Proofs.Embedding

/-!
# Schemas composed of parts

A schema whose subschemas are plain fragments compiles if its parts do, and matching comes to the
verdict on each part that the part has by itself.  This takes that the settings in effect are the
same, and that the names in the part stand for the same (`Fragment.Retains`): one registry serves all
parts of a schema, and the options attached to a part do not go along with it.

* `Fragment.exists_compile_iff` — what it takes for a schema to compile.
* `Fragment.ComposedOf.compiles` — a schema composed of parts compiles.
* `Fragment.ComposedOf.accepts_iff_judge` — and finds wrong with a value what its parts do.
-/

namespace SchemaAlgebra

/-! ## Arguments that contain schemas -/

namespace Draft
variable {draft : Draft}

lemma isObject_or_flag_of_fits {value : Json} (h : draft.fits .schema value = true) :
    value.isObject = true ∨ ∃ flag, value = .bool flag := by
  cases value with
  | object keywords => exact Or.inl rfl
  | bool flag => exact Or.inr ⟨flag, rfl⟩
  | _ => simp [fits, Shape.fitsPlain] at h

lemma fits_schema_of_not_array {value : Json} (harray : value.isArray = false)
    (h : draft.fits .schemaOrSchemas value = true) : draft.fits .schema value = true := by
  cases value with
  | object keywords => exact h
  | bool flag => exact h
  | array items => simp [Json.isArray] at harray
  | _ => simp [fits, Shape.fitsPlain] at h

lemma fitItems_iff {items : List Json} :
    draft.fitItems items = true ↔ ∀ item ∈ items, draft.fits .schema item = true := by
  induction items with
  | nil => simp [fitItems]
  | cons item rest ih => rw [fitItems, Bool.and_eq_true, ih, List.forall_mem_cons]

lemma fitMembers_iff {shape : Shape} {members : Entries Json} :
    draft.fitMembers shape members = true ↔ ∀ member ∈ members, draft.fits shape member.2 = true := by
  induction members with
  | nil => simp [fitMembers]
  | cons member rest ih => rw [fitMembers, Bool.and_eq_true, ih, List.forall_mem_cons]

end Draft

/-! ## Plain documents -/

namespace Matcher

variable {m m' : Matcher} {schema document value : Json} {place : Place}

/-- A keyword of the dialect that is neither an extension nor a reference leads to the schemas that it
applies. -/
lemma lead_of_shape {draft : Draft} {keywords : Entries Json} {keyword : String} {argument : Json}
    (hextension : isExtension keyword = false) (hshape : (draft.shape? keyword).isSome = true)
    (hreference : keyword ≠ "$ref") : m.lead draft keywords (keyword, argument)
      = .schemas (patternsUsed keywords keyword argument)
        (schemasApplied keywords keyword argument) := by
  rw [lead]
  dsimp only
  rw [read?_eq_none hextension]
  dsimp only
  rw [← Option.not_isSome, hshape, Bool.not_true, if_neg Bool.false_ne_true]
  split
  · exact absurd rfl hreference
  · rfl

lemma Alike.akin (h : m.Alike m') (schema : Json) : m.Akin m' schema :=
  ⟨h.formats, h.extensions, fun _ _ _ _ _ => by rw [h.registry]⟩

/-- A truth value is sound, and leads nowhere else. -/
lemma isSound_of_leads_of_flag {next : Place} {flag : Bool} (h : place.2 = .bool flag)
    (hleads : Graph.Leads m.successors place next) : m.isSound next = true := by
  have hobject : place.2.isObject = false := by rw [h]; rfl
  have hstays : m.successors place = [] := by
    rw [successors, parts, targets, texts, leads_of_not_object hobject]
    rfl
  rcases hleads.cases_head with rfl | ⟨other, hother, -⟩
  · rw [isSound, leads_of_not_object hobject, h]
    rfl
  · have hother : other ∈ m.successors place := hother
    rw [hstays] at hother
    exact absurd hother List.not_mem_nil

end Matcher

namespace Plan

variable {document : Json} {pointer : Pointer} {keywords : Entries Json}

lemma plain_of_mem {source : Entries Json} (h : (Json.object source).Plain)
    (hwf : (Json.object source).WellFormed) {argument : Json} {keyword : String}
    (hmem : (keyword, argument) ∈ source) {tokens : List String} {value : Json}
    (hvalue : (tokens, value) ∈ Json.insideOf keyword argument) : value.Plain :=
  h.of_mem_inside (Json.mem_inside_iff.2
    ⟨keyword, argument, Entries.lookup_of_mem hwf.1 hmem, hvalue⟩)

/-- A plain schema stays plain with the definitions of its document. -/
lemma plain_branchDocument {source : Entries Json} (h : (Json.object source).Plain)
    (hwf : (Json.object source).WellFormed) (hbranch : (Json.object keywords).Plain)
    (hbranchwf : (Json.object keywords).WellFormed)
    (hresolve : (Json.object source).resolve? pointer = some (.object keywords)) :
    (branchDocument (.object source) pointer).Plain := by
  rw [branchDocument_object hresolve]
  intro path inner hholds entry hentry
  rcases hholds.cases_keyword with ⟨-, rfl⟩ | ⟨other, argument, tokens, value, rest, hargument, hvalue,
    hinner, -⟩
  · rcases mem_or_mem_of_mem_shareAll hentry with hentry | hentry
    · exact hbranch [] keywords .self entry hentry
    · exact h [] source .self entry hentry
  · have hplain : value.Plain := by
      rcases mem_or_mem_of_mem_shareAll (Entries.mem_of_lookup hargument) with hmem | hmem
      · exact plain_of_mem hbranch hbranchwf hmem hvalue
      · exact plain_of_mem h hwf hmem hvalue
    exact hplain rest inner hinner entry hentry

lemma holds_patternDocument {source : String} {path : List String} {inner : Entries Json}
    (h : (patternDocument source).Holds path inner) :
    inner = [("pattern", .string source), ("type", .string "string")] := by
  rw [patternDocument_eq] at h
  rcases h.cases_keyword with ⟨-, rfl⟩ | ⟨keyword, argument, tokens, value, rest, hargument, hvalue, -⟩
  · rfl
  · have hargument := Entries.mem_of_lookup hargument
    simp only [List.mem_cons, Prod.mk.injEq, List.not_mem_nil, or_false] at hargument
    rcases hargument with ⟨-, rfl⟩ | ⟨-, rfl⟩ <;> simp [Json.insideOf] at hvalue

lemma plain_patternDocument (source : String) : (patternDocument source).Plain := by
  intro path inner hholds entry hentry
  rw [holds_patternDocument hholds] at hentry
  simp only [List.mem_cons, List.not_mem_nil, or_false] at hentry
  rcases hentry with rfl | rfl <;> rfl

lemma wellFormed_patternDocument (source : String) : (patternDocument source).WellFormed := by
  have hsorted : "pattern" < "type" := by decide
  rw [patternDocument_eq]
  exact ⟨List.pairwise_pair.2 hsorted, trivial, trivial, trivial⟩

end Plan

/-! ## Compilation -/

namespace Fragment

/-- The options in effect when a schema is compiled. -/
def settings (f : Fragment) (options : Option Options) : Options :=
  Options.merged f.options? options

/-- The registry of a schema that is compiled. -/
def registry (f : Fragment) (options : Option Options) : Registry :=
  Registry.build (f.settings options) f

/-- The matcher of a schema that is compiled with some extensions. -/
def matcherWith (f : Fragment) (options : Option Options) (extensions : List Extension) : Matcher :=
  ⟨.ofJson (f.settings options).matcher.effectiveDraft f.json,
    (f.settings options).matcher.enforcesFormats, extensions, f.registry options⟩

/-- What it takes for a schema to compile with some extensions. -/
structure CompilesWith (f : Fragment) (options : Option Options) (extensions : List Extension) :
    Prop where
  resolve : Extension.resolve (f.settings options).keywords = .ok extensions
  names : f.checkNames (f.settings options) (f.registry options) = .ok ()
  check : (f.matcherWith options extensions).check f.json = .ok ()
  plan : ∃ plan, Plan.compile (Matcher.build (f.settings options).matcher extensions
    (f.registry options)) f (f.settings options) = .ok plan

variable {f : Fragment} {options : Option Options} {extensions : List Extension}

/-- What compilation makes of a schema. -/
lemma compiled_parts {validator : Validator} (h : Validator.compile f options = .ok validator) :
    ∃ extensions, f.CompilesWith options extensions
      ∧ validator.matcher = f.matcherWith options extensions
      ∧ Plan.compile (Matcher.build (f.settings options).matcher extensions (f.registry options)) f
        (f.settings options) = .ok validator.plan := by
  obtain ⟨extensions, hextensions, h⟩ := bind_eq_ok.1 h
  obtain ⟨_, hnames, h⟩ := bind_eq_ok.1 h
  obtain ⟨matcher, hmatcher, h⟩ := bind_eq_ok.1 h
  obtain ⟨plan, hplan, h⟩ := bind_eq_ok.1 h
  obtain rfl := Except.ok.inj h
  obtain ⟨rfl, hcheck⟩ := Matcher.build_ok (mapError_eq_ok.1 hmatcher)
  exact ⟨extensions, ⟨mapError_eq_ok.1 hextensions, hnames, hcheck, plan, hplan⟩, rfl, hplan⟩

/-- **Compilation** succeeds exactly if all that it takes is there, and gives the matcher of the
schema. -/
lemma exists_compile_iff {matcher : Matcher} :
    (∃ validator, Validator.compile f options = .ok validator ∧ validator.matcher = matcher)
      ↔ ∃ extensions, f.CompilesWith options extensions ∧ matcher = f.matcherWith options extensions := by
  constructor
  · rintro ⟨validator, h, rfl⟩
    obtain ⟨extensions, hcompiles, hmatcher, -⟩ := compiled_parts h
    exact ⟨extensions, hcompiles, hmatcher⟩
  · rintro ⟨extensions, h, rfl⟩
    obtain ⟨plan, hplan⟩ := h.plan
    have hbuild : Matcher.build (f.settings options).matcher extensions (f.registry options) f.json
        = .ok (f.matcherWith options extensions) := Plan.build_eq_ok_iff.2 ⟨rfl, h.check⟩
    exact ⟨⟨f.matcherWith options extensions, plan, (f.settings options).matcher⟩,
      bind_eq_ok.2 ⟨extensions, mapError_eq_ok.2 h.resolve, bind_eq_ok.2 ⟨(), h.names,
        bind_eq_ok.2 ⟨_, mapError_eq_ok.2 hbuild, bind_eq_ok.2 ⟨plan, hplan, rfl⟩⟩⟩⟩, rfl⟩

/-- What passes the check of names says them legibly. -/
lemma legible_of_checkNames {settings : Options} {registry : Registry} (hplain : f.json.Plain)
    (h : f.checkNames settings registry = .ok ()) {path : List String} {keywords : Entries Json}
    (hholds : f.json.Holds path keywords) :
    Legible (fun name => registry.contains name = true) keywords := by
  obtain ⟨hclasses, htransforms⟩ := checked_of_checkNames h hholds
  refine ⟨(hplain.of_holds hholds).lookup_reference, ?_, ?_⟩
  · exact fun argument hargument => classes_of_checkClasses hclasses hargument
  · intro argument hargument
    obtain ⟨names, hnames, -⟩ := transforms_of_checkTransforms htransforms hargument
    exact ⟨names, hnames⟩

/-! ## Parts -/

/-- A fragment that compiles under the dialect of combinators, whose schemas make no references and
announce no other dialect. -/
structure IsPart (part : Fragment) (options : Option Options) : Prop where
  wellFormed : part.json.WellFormed
  placed : part.WellPlaced
  plain : part.json.Plain
  draft : (part.settings options).matcher.effectiveDraft = .draft7
  compiles : ∃ validator, Validator.compile part options = .ok validator

lemma isPart_iff {part : Fragment} : part.IsPart options ↔ part.json.WellFormed
    ∧ (∀ entry ∈ part.records.entries, Pointer.Rooted entry.1) ∧ part.json.Plain
    ∧ (part.settings options).matcher.effectiveDraft = .draft7
    ∧ (Validator.compile part options).isOk = true := by
  constructor
  · rintro ⟨hwf, hplaced, hplain, hdraft, validator, hvalidator⟩
    exact ⟨hwf, hplaced, hplain, hdraft, by rw [hvalidator]; rfl⟩
  · rintro ⟨hwf, hplaced, hplain, hdraft, hok⟩
    exact ⟨hwf, hplaced, hplain, hdraft, exists_of_isOk hok⟩

instance (part : Fragment) (options : Option Options) : Decidable (part.IsPart options) :=
  decidable_of_iff _ isPart_iff.symm

/-- Within the whole, a part is subject to the settings that it has by itself, and the names in it
stand for what they stand for by itself. -/
structure Retains (options : Option Options) (whole part : Fragment) : Prop where
  formats : (part.settings options).matcher.enforcesFormats
    = (whole.settings options).matcher.enforcesFormats
  extensions : Extension.resolve (part.settings options).keywords
    = Extension.resolve (whole.settings options).keywords
  classes : ∀ path keywords, part.json.Holds path keywords →
    SameInstances (part.registry options) (whole.registry options) (namedClasses keywords)
  transforms : ∀ path keywords, part.json.Holds path keywords → ∀ name ∈ namedTransforms keywords,
    part.knowsTransform (whole.settings options) (Pointer.join "" path) name = true

/-- A part keeps its settings if it has none of its own, and means the same if it names nothing. -/
lemma Retains.of_nameless {part whole : Fragment} (hpart : part.options? = none)
    (hwhole : whole.options? = none) (hnames : ∀ path keywords, part.json.Holds path keywords →
      namedClasses keywords = [] ∧ namedTransforms keywords = []) : Retains options whole part where
  formats := by rw [settings, settings, hpart, hwhole]
  extensions := by rw [settings, settings, hpart, hwhole]
  classes := fun path keywords hholds name hname => by
    rw [(hnames path keywords hholds).1] at hname
    exact absurd hname List.not_mem_nil
  transforms := fun path keywords hholds name hname => by
    rw [(hnames path keywords hholds).2] at hname
    exact absurd hname List.not_mem_nil

/-- Keywords by which schemas are composed of others. -/
def structuralKeywords : List String :=
  ["type", "anyOf", "items", "additionalItems", "minItems", "maxItems", "properties", "required",
    "additionalProperties"]

/-- A schema is composed of parts: its own keywords are structural, it carries nothing itself, and all
schemas inside it are parts that it embeds.  Its arguments have their shapes if the parts are schemas of
the dialect. -/
structure ComposedOf (whole : Fragment) (parts : List Fragment) : Prop where
  wellFormed : whole.json.WellFormed
  placed : whole.WellPlaced
  bare : whole.root? = none
  structural : ∀ entry ∈ whole.keywords, entry.1 ∈ structuralKeywords
  fits : (∀ part ∈ parts, Draft.draft7.isSchema part.json = true) → ∀ entry ∈ whole.keywords,
    ∀ shape, Draft.draft7.shape? entry.1 = some shape → Draft.draft7.fits shape entry.2 = true
  embedsUnder : ∀ keyword, whole.EmbedsUnder parts keyword

lemma structural_heeded : ∀ keyword ∈ structuralKeywords, Matcher.isExtension keyword = false
    ∧ (Draft.draft7.shape? keyword).isNone = false := by
  decide

/-- A schema that a structural keyword gives is one of the dialect. -/
lemma isSchema_of_gives {keywords : Entries Json} {head : String} {schema : Json}
    (h : Draft.draft7.isSchema (.object keywords) = true) (hhead : head ∈ structuralKeywords)
    (hgives : Matcher.Gives keywords schema head) : Draft.draft7.isSchema schema = true := by
  rw [Draft.isSchema, Draft.fits, Bool.and_eq_true] at h
  have hfits : ∀ {argument} shape, Entries.lookup head keywords = some argument →
      Draft.draft7.shape? head = some shape → Draft.draft7.fits shape argument = true :=
    fun _ hlookup hshape => Plan.fitKeywords_iff.1 h.2 _ (Entries.mem_of_lookup hlookup) _ hshape
  cases hgives with
  | single hsingle hplain hlookup =>
    have hshape : ∀ head ∈ structuralKeywords, head ∈ Json.singleKeywords →
        Draft.draft7.shape? head = some .schema
        ∨ head ∈ Json.listKeywords ∧ Draft.draft7.shape? head = some .schemaOrSchemas := by decide
    rcases hshape head hhead hsingle with hshape | ⟨hlist, hshape⟩
    · exact hfits _ hlookup hshape
    · exact Draft.fits_schema_of_not_array (hplain hlist) (hfits _ hlookup hshape)
  | @listed schemas hlist hlookup hmem =>
    have hshape : ∀ head ∈ structuralKeywords, head ∈ Json.listKeywords →
        Draft.draft7.shape? head = some .schemas
        ∨ Draft.draft7.shape? head = some .schemaOrSchemas := by decide
    have hitems : Draft.draft7.fitItems schemas = true := by
      rcases hshape head hhead hlist with hshape | hshape
      · exact (Bool.and_eq_true_iff.1 (hfits _ hlookup hshape)).2
      · exact (Bool.and_eq_true_iff.1 (hfits _ hlookup hshape)).2
    exact Draft.fitItems_iff.1 hitems schema hmem
  | named hmap hlookup hmem =>
    have hshape : ∀ head ∈ structuralKeywords, head ∈ Json.mapKeywords →
        Draft.draft7.shape? head = some (.map .schema) := by decide
    exact Draft.fitMembers_iff.1 (hfits _ hlookup (hshape head hhead hmap)) _ hmem

/-- The schemas that a structural keyword applies are objects or truth values. -/
lemma isObject_or_flag_of_applied {keywords : Entries Json} {keyword : String} {argument schema : Json}
    (h : Draft.draft7.isSchema (.object keywords) = true)
    (hsilent : Entries.lookup "patternProperties" keywords = none)
    (hlookup : Entries.lookup keyword keywords = some argument) (hkeyword : keyword ∈ structuralKeywords)
    (hschema : schema ∈ Matcher.schemasApplied keywords keyword argument) :
    schema.isObject = true ∨ ∃ flag, schema = .bool flag := by
  obtain ⟨head, hgives, hhead⟩ := Matcher.exists_gives_of_mem_schemasApplied hlookup hschema
  have hstructural : head ∈ structuralKeywords := by
    -- of the keywords that a structural one speaks for, only `patternProperties` is none itself
    have hothers : ∀ pair ∈ Matcher.applyingOthers, pair.1 ∈ structuralKeywords →
        pair.2 ∈ structuralKeywords ∨ pair.2 = "patternProperties" := by decide
    rcases hhead with rfl | hhead
    · exact hkeyword
    · rcases hothers _ hhead hkeyword with hother | rfl
      · exact hother
      · obtain ⟨argument, hargument⟩ := hgives.exists_lookup
        rw [hsilent] at hargument
        simp at hargument
  exact Draft.isObject_or_flag_of_fits (isSchema_of_gives h hstructural hgives)

variable {whole part : Fragment} {parts : List Fragment}

lemma IsPart.exists_compilesWith (h : part.IsPart options) :
    ∃ extensions, part.CompilesWith options extensions := by
  obtain ⟨validator, hvalidator⟩ := h.compiles
  obtain ⟨extensions, hcompiles, -⟩ := exists_compile_iff.1 ⟨validator, hvalidator, rfl⟩
  exact ⟨extensions, hcompiles⟩

lemma IsPart.ofPlain (h : part.IsPart options) (extensions : List Extension) :
    (part.matcherWith options extensions).OfPlain part.json :=
  ⟨by rw [matcherWith, h.draft], h.plain, h.wellFormed⟩

lemma IsPart.isSchema (h : part.IsPart options) : Draft.draft7.isSchema part.json = true := by
  obtain ⟨extensions, hcompiles⟩ := h.exists_compilesWith
  exact ((h.ofPlain extensions).check_iff.1 hcompiles.check).1

/-- A part has, by itself, the extensions of the whole. -/
lemma IsPart.compilesWith (h : part.IsPart options) (hretains : Retains options whole part)
    (hresolve : Extension.resolve (whole.settings options).keywords = .ok extensions) :
    part.CompilesWith options extensions := by
  obtain ⟨others, hcompiles⟩ := h.exists_compilesWith
  have hsame := hcompiles.resolve.symm.trans (hretains.extensions.trans hresolve)
  exact Except.ok.inj hsame ▸ hcompiles

lemma Retains.akin (h : Retains options whole part) (extensions : List Extension) :
    (part.matcherWith options extensions).Akin (whole.matcherWith options extensions) part.json :=
  ⟨h.formats, rfl, h.classes⟩

namespace ComposedOf

variable (h : whole.ComposedOf parts)

include h

lemma lookup_eq_none {keyword : String} (hkeyword : keyword ∉ structuralKeywords) :
    Entries.lookup keyword whole.keywords = none := by
  cases hlookup : Entries.lookup keyword whole.keywords with
  | none => rfl
  | some argument => exact absurd (h.structural _ (Entries.mem_of_lookup hlookup)) hkeyword

/-- The whole is read in the scope around it. -/
lemma enter_eq : (⟨.draft7, Document.defaultBase⟩ : Scope).enter whole.keywords
    = ⟨.draft7, Document.defaultBase⟩ := by
  have hdialect := h.lookup_eq_none (show "$schema" ∉ structuralKeywords by decide)
  have hidentifier := h.lookup_eq_none (show "$id" ∉ structuralKeywords by decide)
  have hmodern : ¬ Draft.draft7 = .draft4 := by decide
  simp only [Scope.enter, Draft.identifier?, hdialect, hidentifier, if_neg hmodern, Option.bind_none,
    Option.getD_none, ite_self]

/-- The whole announces no dialect, so a document keeps all of it. -/
lemma kept_eq : Document.kept whole.json = whole.json := by
  have hdialect : "$schema" ∉ structuralKeywords := by decide
  refine congrArg Json.object (List.filter_eq_self.2 fun entry hentry => decide_eq_true ?_)
  rintro hkey
  exact hdialect (hkey ▸ h.structural entry hentry)

/-- What stands inside the whole is a part that it embeds. -/
lemma embeds {tokens : List String} {value : Json} (hmem : (tokens, value) ∈ Json.inside whole.keywords) :
    ∃ part ∈ parts, value = part.json ∧ whole.Embeds part tokens := by
  obtain ⟨keyword, argument, hargument, hvalue⟩ := Json.mem_inside_iff.1 hmem
  obtain ⟨part, hpart, rfl, hcarried⟩ := h.embedsUnder keyword argument tokens value hargument hvalue
  exact ⟨part, hpart, rfl, hmem, hcarried⟩

/-- A subschema of the whole is the whole itself, or one of a part. -/
lemma holds_cases {path : List String} {keywords : Entries Json}
    (hholds : whole.json.Holds path keywords) : path = [] ∧ keywords = whole.keywords
      ∨ ∃ part ∈ parts, ∃ tokens rest, whole.Embeds part tokens ∧ path = tokens ++ rest
        ∧ part.json.Holds rest keywords := by
  cases hholds with
  | self => exact Or.inl ⟨rfl, rfl⟩
  | step hmem hinner =>
    obtain ⟨part, hpart, rfl, hembeds⟩ := h.embeds hmem
    exact Or.inr ⟨part, hpart, _, _, hembeds, rfl, hinner⟩

variable (hparts : ∀ part ∈ parts, part.IsPart options)
  (hretains : ∀ part ∈ parts, Retains options whole part)

include hparts

/-- **A schema composed of plain parts** is plain. -/
lemma plain : whole.json.Plain := by
  have hsilent : ∀ keyword ∈ structuralKeywords, keyword ≠ "$ref" ∧ keyword ≠ "$schema" := by decide
  intro path keywords hholds entry hentry
  rcases h.holds_cases hholds with ⟨-, rfl⟩ | ⟨part, hpart, tokens, rest, -, -, hinner⟩
  · obtain ⟨hreference, hdialect⟩ := hsilent entry.1 (h.structural entry hentry)
    simp [Json.isBinding, hreference, hdialect]
  · exact (hparts part hpart).plain rest keywords hinner entry hentry

lemma isSchema : Draft.draft7.isSchema whole.json = true :=
  Bool.and_eq_true_iff.2 ⟨rfl, Plan.fitKeywords_iff.2 (h.fits fun part hpart =>
    (hparts part hpart).isSchema)⟩

/-! ### Names -/

omit hparts in
/-- The root of the whole names nothing. -/
lemma sound_root {known : String → Prop} {carried : Option (Table Transform)} :
    Sound known whole.keywords carried :=
  sound_of_silent (h.lookup_eq_none (by decide)) (h.lookup_eq_none (by decide))
    (h.lookup_eq_none (by decide))

include hretains

lemma legible (hresolve : Extension.resolve (whole.settings options).keywords = .ok extensions)
    {entry : Pointer × Entries Json} (hentry : entry ∈ whole.json.subschemas) :
    Legible (fun _ => True) entry.2 := by
  obtain ⟨path, hholds, -⟩ := Json.mem_subschemas.1 hentry
  rcases h.holds_cases hholds with ⟨-, hroot⟩ | ⟨part, hpart, tokens, rest, -, -, hinner⟩
  · have hsound : Sound (fun _ => True) whole.keywords none := h.sound_root
    rw [hroot]
    exact hsound.legible
  · have hcompiles := (hparts part hpart).compilesWith (hretains part hpart) hresolve
    exact (legible_of_checkNames (hparts part hpart).plain hcompiles.names hinner).mono
      fun _ _ => trivial

/-- The names in the parts are known in the whole. -/
lemma checkNames (hresolve : Extension.resolve (whole.settings options).keywords = .ok extensions) :
    whole.checkNames (whole.settings options) (whole.registry options) = .ok () := by
  rcases checkNames_of_legible (whole.settings options) (whole.registry options)
    (fun _ => h.legible hparts hretains hresolve) with ⟨hok, -⟩ | ⟨-, entry, hentry, hlacks⟩
  · exact hok
  · obtain ⟨path, hholds, hpointer⟩ := Json.mem_subschemas.1 hentry
    rcases h.holds_cases hholds with ⟨-, hroot⟩ | ⟨part, hpart, tokens, rest, hembeds, rfl, hinner⟩
    · rw [LacksAt, hroot, namedClasses, namedTransforms, h.lookup_eq_none (by decide),
        h.lookup_eq_none (by decide)] at hlacks
      simp at hlacks
    · have hpart' := hparts part hpart
      have hnames := (hpart'.compilesWith (hretains part hpart) hresolve).names
      rcases hlacks with ⟨name, hname, hlacks⟩ | ⟨name, hname, hlacks⟩
      · have hknown := (legible_of_checkNames hpart'.plain hnames hinner).known_of_mem hname
        rw [((hretains part hpart).classes rest entry.2 hinner).contains_eq hname, hlacks] at hknown
        simp at hknown
      · have hknown := (hretains part hpart).transforms rest entry.2 hinner name hname
        rw [← hembeds.knowsTransform_eq, ← hpointer, hlacks] at hknown
        simp at hknown

omit hretains

/-! ### Matching -/

omit hparts in
/-- A structural keyword leads to the schemas that it applies, and has no patterns. -/
lemma lead_eq (m : Matcher) {keyword : String} {argument : Json}
    (hlookup : Entries.lookup keyword whole.keywords = some argument) :
    m.lead .draft7 whole.keywords (keyword, argument)
      = .schemas [] (Matcher.schemasApplied whole.keywords keyword argument) := by
  have hstructural : keyword ∈ structuralKeywords := h.structural _ (Entries.mem_of_lookup hlookup)
  obtain ⟨hextension, hshape⟩ := structural_heeded keyword hstructural
  have hpatterns : Matcher.patternsUsed whole.keywords keyword argument = [] := by
    unfold Matcher.patternsUsed
    split
    · exact absurd hstructural (by decide)
    · exact absurd hstructural (by decide)
    · rfl
    · rw [Matcher.schemasUnder, h.lookup_eq_none (by decide)]
      rfl
    · rfl
  rw [Matcher.lead_of_shape hextension (by simpa using hshape) (by rintro rfl; revert hstructural; decide),
    hpatterns]

variable (hdraft : (whole.settings options).matcher.effectiveDraft = .draft7)

include hdraft

lemma ofPlain (extensions : List Extension) :
    (whole.matcherWith options extensions).OfPlain whole.json :=
  ⟨by rw [matcherWith, hdraft], h.plain hparts, h.wellFormed⟩

lemma start_eq (extensions : List Extension) :
    (whole.matcherWith options extensions).start = (⟨.draft7, Document.defaultBase⟩, whole.json) := by
  rw [(h.ofPlain hparts hdraft extensions).start_eq, h.kept_eq]

/-- What the whole applies is a part, or a truth value. -/
lemma part_or_flag {next : Matcher.Place}
    (hnext : next ∈ (whole.matcherWith options extensions).parts
      (whole.matcherWith options extensions).start) :
    (∃ part ∈ parts, next = (⟨.draft7, Document.defaultBase⟩, part.json))
      ∨ ∃ flag, next.2 = .bool flag := by
  rw [h.start_eq hparts hdraft] at hnext
  obtain ⟨patterns, schemas, hlead, hschema, hscope⟩ := Matcher.mem_parts.1 hnext
  have hinner : Matcher.Place.inner (⟨.draft7, Document.defaultBase⟩, whole.json)
      = ⟨.draft7, Document.defaultBase⟩ := h.enter_eq
  obtain ⟨⟨keyword, argument⟩, hentry, hlead⟩ := Matcher.mem_leads_object.1 hlead
  rw [Matcher.eq_of_lead_schemas hlead] at hschema
  have hlookup := Entries.lookup_of_mem h.wellFormed.1 (Matcher.mem_of_mem_effectiveKeywords hentry)
  rcases isObject_or_flag_of_applied (h.isSchema hparts) (h.lookup_eq_none (by decide)) hlookup
    (h.structural _ (Entries.mem_of_lookup hlookup)) hschema with hobject | hflag
  · obtain ⟨tokens, hmem⟩ := Matcher.exists_mem_inside_of_applied hlookup hschema hobject
    obtain ⟨part, hpart, hvalue, -⟩ := h.embeds hmem
    exact Or.inl ⟨part, hpart, Prod.ext (hscope.trans hinner) hvalue⟩
  · exact Or.inr hflag

include hretains in
/-- **The whole can be matched against**, as its parts can. -/
lemma check (hresolve : Extension.resolve (whole.settings options).keywords = .ok extensions) :
    (whole.matcherWith options extensions).check whole.json = .ok () := by
  have hplain := h.ofPlain hparts hdraft extensions
  have hchecked : ∀ part ∈ parts, Draft.draft7.isSchema part.json = true
      ∧ ∀ place, Graph.Leads (part.matcherWith options extensions).successors
        (part.matcherWith options extensions).start place →
          (part.matcherWith options extensions).isSound place = true := fun part hpart =>
    ((hparts part hpart).ofPlain extensions).check_iff.1
      ((hparts part hpart).compilesWith (hretains part hpart) hresolve).check
  refine hplain.check_iff.2 ⟨h.isSchema hparts, fun place hplace => ?_⟩
  rcases hplace.cases_head with rfl | ⟨next, hnext, hleads⟩
  · rw [h.start_eq hparts hdraft, Matcher.isSound, Bool.and_eq_true, List.all_eq_true]
    refine ⟨rfl, fun lead hlead => ?_⟩
    obtain ⟨⟨keyword, argument⟩, hentry, rfl⟩ := Matcher.mem_leads_object.1 hlead
    rw [h.enter_eq, h.lead_eq _
      (Entries.lookup_of_mem h.wellFormed.1 (Matcher.mem_of_mem_effectiveKeywords hentry))]
    rfl
  · have hconfined := hplain.confined (Matcher.akin_refl _ _)
    have hnext : next ∈ (whole.matcherWith options extensions).successors
      (whole.matcherWith options extensions).start := hnext
    rw [hconfined.successors_eq] at hnext
    rcases h.part_or_flag hparts hdraft hnext with ⟨part, hpart, rfl⟩ | ⟨flag, hflag⟩
    · have hpartPlain := (hparts part hpart).ofPlain extensions
      have hakin := (hretains part hpart).akin extensions
      have hown : Matcher.Confined (part.matcherWith options extensions)
          (part.matcherWith options extensions)
          (⟨.draft7, Document.defaultBase⟩, part.json) :=
        ⟨Matcher.akin_refl _ _, (hparts part hpart).plain, (hparts part hpart).wellFormed, rfl⟩
      -- by itself, the part is a document, which does without the dialect that it announces
      have hsound := fun place (hplace : Graph.Leads _ _ place) =>
        (hpartPlain.confined (Matcher.akin_refl _ _)).sound_of_bare hown
          (by rw [hpartPlain.start_eq, Plan.bare_kept]) (by rw [hpartPlain.start_eq])
          (hchecked part hpart).2 hplace
      exact (⟨hakin, hown.plain, hown.wellFormed, rfl⟩ : Matcher.Confined _ _ _).sound_of_leads
        hsound hleads
    · exact Matcher.isSound_of_leads_of_flag hflag hleads

end ComposedOf

/-! ### Matchers of branches -/

section Builds

variable (hdraft : (whole.settings options).matcher.effectiveDraft = .draft7)

include hdraft

/-- What can be matched against by itself can be with the settings of the whole. -/
lemma exists_build {m : Matcher} {value : Json} (hplain : m.OfPlain value)
    (hcheck : m.check value = .ok ()) (hakin : m.Akin (whole.matcherWith options extensions) value) :
    ∃ matcher, Matcher.build (whole.settings options).matcher extensions (whole.registry options) value
      = .ok matcher := by
  have hother : Matcher.OfPlain ⟨.ofJson (whole.settings options).matcher.effectiveDraft value,
      (whole.settings options).matcher.enforcesFormats, extensions, whole.registry options⟩ value :=
    ⟨by rw [hdraft], hplain.plain, hplain.wellFormed⟩
  exact ⟨_, Plan.build_eq_ok_iff.2 ⟨rfl, hplain.check_of_akin hother
    ⟨hakin.formats, hakin.extensions, hakin.classes⟩ hcheck⟩⟩

variable (hpart : part.IsPart options) (hretains : Retains options whole part)

include hpart hretains

lemma exists_build_pattern {source : String} {matcher : Matcher}
    (hbuild : Matcher.build (part.settings options).matcher extensions (part.registry options)
      (Plan.patternDocument source) = .ok matcher) :
    ∃ matcher, Matcher.build (whole.settings options).matcher extensions (whole.registry options)
      (Plan.patternDocument source) = .ok matcher := by
  obtain ⟨rfl, hcheck⟩ := Matcher.build_ok hbuild
  refine exists_build hdraft ⟨by rw [hpart.draft], Plan.plain_patternDocument source,
    Plan.wellFormed_patternDocument source⟩ hcheck ⟨hretains.formats, rfl, ?_⟩
  intro path keywords hholds name hname
  rw [Plan.holds_patternDocument hholds] at hname
  exact absurd hname List.not_mem_nil

/-- A schema in a part has a matcher with the settings of the whole if it has one with the definitions
of the part. -/
lemma rebuilds : Plan.Rebuilds
    (Matcher.build (part.settings options).matcher extensions (part.registry options))
    (Matcher.build (whole.settings options).matcher extensions (whole.registry options)) part.json := by
  intro path value matcher hresolve hholds hbuild
  obtain ⟨rfl, hcheck⟩ := Matcher.build_ok hbuild
  have hwf := Plan.wellFormed_of_resolve? hpart.wellFormed hresolve
  have hdocumentwf := Plan.wellFormed_branchDocument hpart.wellFormed hresolve hwf
  have hboth : value.Plain ∧ (Plan.branchDocument part.json (Pointer.join "" path)).Plain := by
    by_cases hobject : value.isObject = true
    · obtain ⟨keywords, rfl⟩ := Matcher.exists_object_of_isObject hobject
      have hplain := hpart.plain.of_holds (hholds keywords rfl)
      exact ⟨hplain, Plan.plain_branchDocument hpart.plain hpart.wellFormed hplain hwf hresolve⟩
    · have hobject : value.isObject = false := by simpa using hobject
      rw [Plan.branchDocument_of_not_object hresolve hobject]
      exact ⟨Json.plain_of_not_object hobject, Json.plain_of_not_object hobject⟩
  have hbare : Matcher.bare (Plan.branchDocument part.json (Pointer.join "" path))
      = Matcher.bare value := Plan.bare_branchDocument hresolve
  have hdocument : Matcher.OfPlain ⟨.ofJson (part.settings options).matcher.effectiveDraft
      (Plan.branchDocument part.json (Pointer.join "" path)),
      (part.settings options).matcher.enforcesFormats, extensions, part.registry options⟩
      (Plan.branchDocument part.json (Pointer.join "" path)) :=
    ⟨by rw [hpart.draft], hboth.2, hdocumentwf⟩
  have hvalue : Matcher.OfPlain ⟨.ofJson .draft7 value,
      (part.settings options).matcher.enforcesFormats, extensions, part.registry options⟩ value :=
    ⟨rfl, hboth.1, hwf⟩
  have hvalueSchema : Draft.draft7.isSchema value = true := by
    rw [← Plan.isSchema_branchDocument hpart.isSchema hresolve]
    exact (hdocument.check_iff.1 hcheck).1
  refine exists_build hdraft hvalue
    (hdocument.check_of_bare hvalue ⟨rfl, rfl, rfl⟩ hbare hvalueSchema hcheck)
    ⟨hretains.formats, rfl, fun more inner hinner => ?_⟩
  obtain ⟨keywords, rfl⟩ : ∃ keywords, value = .object keywords := by
    cases hinner <;> exact ⟨_, rfl⟩
  exact hretains.classes _ _ ((hholds keywords rfl).trans hinner)

end Builds

namespace ComposedOf

variable (h : whole.ComposedOf parts) (hparts : ∀ part ∈ parts, part.IsPart options)
  (hretains : ∀ part ∈ parts, Retains options whole part)
  (hdraft : (whole.settings options).matcher.effectiveDraft = .draft7)

include h

/-! ### Plans -/

/-- A node of the whole is the root, or a node of a part. -/
lemma nodes_cases (hparts : ∀ part ∈ parts, part.IsPart options) {pointer : Pointer}
    (hpointer : pointer ∈ Outline.nodes whole.json) :
    pointer = "" ∨ ∃ part ∈ parts, ∃ tokens, whole.Embeds part tokens
      ∧ ∃ inner ∈ Outline.nodes part.json, pointer = Pointer.join "" tokens ++ inner := by
  have hleads := Outline.mem_nodes_iff.1 hpointer
  clear hpointer
  induction hleads with
  | refl => exact Or.inl rfl
  | @tail before after _ hedge ih =>
    have hedge : after ∈ Outline.edges whole.json before := hedge
    rcases ih with rfl | ⟨part, hpart, tokens, hembeds, inner, hinner, rfl⟩
    · obtain ⟨tokens, value, hmem, -, rfl⟩ := Outline.standsIn_of_mem_children
        ((h.plain hparts).refFree [] whole.keywords .self) hedge
      obtain ⟨part, hpart, -, hembeds⟩ := h.embeds hmem
      exact Or.inr ⟨part, hpart, tokens, hembeds, "", Outline.mem_nodes_iff.2 .refl,
        (String.append_empty).symm⟩
    · rw [hembeds.edges_eq h.wellFormed (hparts part hpart).plain hinner] at hedge
      obtain ⟨next, hnext, rfl⟩ := List.mem_map.1 hedge
      exact Or.inr ⟨part, hpart, tokens, hembeds, next,
        Outline.mem_nodes_iff.2 ((Outline.mem_nodes_iff.1 hinner).tail hnext), rfl⟩

lemma lookup_shared : ∀ keyword ∈ Plan.sharedKeywords, Entries.lookup keyword whole.keywords = none :=
  fun keyword hkeyword => h.lookup_eq_none (by revert keyword; decide)

/-- The root of the whole has no transforms, and none that never run. -/
lemma chainAt_root (settings : Options) : Plan.chainAt whole settings whole.json "" = .ok [] := by
  have hunvisited : Plan.unvisited "" whole.keywords = [] := by
    refine List.append_eq_nil_iff.2 ⟨List.filterMap_eq_nil_iff.2 fun keyword hkeyword => ?_,
      List.flatMap_eq_nil_iff.2 fun keyword hkeyword => ?_⟩
    · rw [h.lookup_eq_none (by revert keyword; decide)]
      rfl
    · rw [h.lookup_eq_none (by revert keyword; decide)]
  have hkeywords : Outline.keywordsAt? whole.json "" = some whole.keywords := rfl
  have hplaced : Plan.misplaced? "" whole.keywords = none := by
    rw [Plan.misplaced?, hunvisited]
    rfl
  unfold Plan.chainAt
  rw [hkeywords]
  dsimp only
  rw [hplaced, h.lookup_eq_none (by decide)]

include hparts hretains hdraft

/-- The branches of the whole are parts, and it has no patterns and no condition. -/
lemma buildable_root (hresolve : Extension.resolve (whole.settings options).keywords = .ok extensions) :
    Plan.Buildable (Matcher.build (whole.settings options).matcher extensions (whole.registry options))
      whole.json "" where
  patterns := fun pattern hpattern => by
    have hnone : Outline.named "" whole.keywords "patternProperties" = [] := by
      rw [Outline.named, h.lookup_eq_none (by decide)]
    have hpattern : pattern ∈ Outline.named "" whole.keywords "patternProperties" := hpattern
    rw [hnone] at hpattern
    exact absurd hpattern List.not_mem_nil
  branches := fun _ branch hbranch => by
    have hread : Outline.read whole.json "" = Outline.ofKeywords whole.json "" whole.keywords := rfl
    rw [hread] at hbranch
    obtain ⟨tokens, value, hmem, hwalk, rfl⟩ := Outline.standsIn_of_mem_children
      ((h.plain hparts).refFree [] whole.keywords .self) (Outline.branches_subset_children _ hbranch)
    obtain ⟨part, hpart, rfl, -⟩ := h.embeds hmem
    have hdocument : Plan.branchDocument whole.json (Pointer.join "" tokens) = part.json :=
      Plan.branchDocument_of_silent h.lookup_shared ((Json.resolve?_join _ "" tokens).trans hwalk)
    rw [hdocument]
    exact exists_build hdraft ((hparts part hpart).ofPlain extensions)
      ((hparts part hpart).compilesWith (hretains part hpart) hresolve).check
      ((hretains part hpart).akin extensions)
  condition := fun _ place hplace => by
    obtain ⟨-, keywords, value, hkeywords, hvalue⟩ := Outline.condition_stands hplace
    obtain rfl : whole.keywords = keywords := Option.some.inj hkeywords
    rw [h.lookup_eq_none (by decide)] at hvalue
    simp at hvalue

/-- **The whole has a plan**, as its parts have. -/
lemma exists_plan (hresolve : Extension.resolve (whole.settings options).keywords = .ok extensions) :
    ∃ plan, Plan.compile (Matcher.build (whole.settings options).matcher extensions
      (whole.registry options)) whole (whole.settings options) = .ok plan := by
  refine Plan.exists_plan_iff.2 fun pointer hpointer => ?_
  rcases h.nodes_cases hparts hpointer with rfl | ⟨part, hpart, tokens, hembeds, inner, hinner, rfl⟩
  · exact ⟨⟨[], h.chainAt_root _⟩, h.buildable_root hparts hretains hdraft hresolve⟩
  · have hpart' := hparts part hpart
    have hcompiles := hpart'.compilesWith (hretains part hpart) hresolve
    obtain ⟨hchain, hbuildable⟩ := Plan.exists_plan_iff.1 hcompiles.plan inner hinner
    refine ⟨hembeds.exists_chainAt h.wellFormed hpart'.plain ?_ (hretains part hpart).transforms hinner
      hchain, hembeds.buildable h.wellFormed hpart'.plain h.lookup_shared
        (rebuilds hdraft hpart' (hretains part hpart)) ?_ hinner hbuildable⟩
    · intro path keywords hholds
      exact (legible_of_checkNames hpart'.plain hcompiles.names hholds).mono fun _ _ => trivial
    · exact fun source matcher => exists_build_pattern hdraft hpart' (hretains part hpart)

/-- **A schema composed of parts compiles** as they do. -/
theorem compiles (hresolve : Extension.resolve (whole.settings options).keywords = .ok extensions) :
    whole.CompilesWith options extensions where
  resolve := hresolve
  names := h.checkNames hparts hretains hresolve
  check := h.check hparts hretains hdraft hresolve
  plan := h.exists_plan hparts hretains hdraft hresolve

/-- A schema composed of parts is a part in its turn. -/
theorem isPart (hresolve : Extension.resolve (whole.settings options).keywords = .ok extensions) :
    whole.IsPart options where
  wellFormed := h.wellFormed
  placed := h.placed
  plain := h.plain hparts
  draft := hdraft
  compiles := by
    obtain ⟨validator, hvalidator, -⟩ := exists_compile_iff.2
      ⟨extensions, h.compiles hparts hretains hdraft hresolve, rfl⟩
    exact ⟨validator, hvalidator⟩

end ComposedOf

/-! ## Verdicts -/

/-- **The structural verdict** of a schema on a value: the schema compiles, and its matcher finds nothing
wrong. -/
def Accepts (f : Fragment) (options : Option Options) (value : Json) : Prop :=
  ∃ validator, Validator.compile f options = .ok validator ∧ validator.matcher.accepts value = true

/-- The scope of a plain document in the dialect of combinators. -/
abbrev plainScope : Scope :=
  ⟨.draft7, Document.defaultBase⟩

/-- A judge finds nothing wrong with the values that the parts accept by themselves. -/
def JudgedAlike (options : Option Options) (parts : List Fragment) (judge : Judge) : Prop :=
  ∀ part ∈ parts, ∀ value, judge plainScope part.json value = [] ↔ part.Accepts options value

lemma accepts_iff {value : Json} : f.Accepts options value ↔
    (Validator.compile f options).toOption.any (fun validator => validator.matcher.accepts value)
      = true := by
  rw [Accepts]
  cases Validator.compile f options with
  | error error => simp [Except.toOption]
  | ok validator => simp [Except.toOption]

instance (f : Fragment) (options : Option Options) (value : Json) : Decidable (f.Accepts options value) :=
  decidable_of_iff _ accepts_iff.symm

lemma accepts_iff_of_compilesWith {value : Json} (h : f.CompilesWith options extensions) :
    f.Accepts options value ↔ (f.matcherWith options extensions).accepts value = true := by
  constructor
  · rintro ⟨validator, hvalidator, haccepts⟩
    obtain ⟨others, hother, hmatcher⟩ := exists_compile_iff.1 ⟨validator, hvalidator, rfl⟩
    obtain rfl := Except.ok.inj (h.resolve.symm.trans hother.resolve)
    rwa [← hmatcher]
  · intro haccepts
    obtain ⟨validator, hvalidator, hmatcher⟩ := exists_compile_iff.2 ⟨extensions, h, rfl⟩
    exact ⟨validator, hvalidator, by rwa [hmatcher]⟩

namespace ComposedOf

variable (h : whole.ComposedOf parts) (hparts : ∀ part ∈ parts, part.IsPart options)
  (hretains : ∀ part ∈ parts, Retains options whole part)
  (hdraft : (whole.settings options).matcher.effectiveDraft = .draft7)

include h hparts hretains hdraft

/-- **The verdict on a value**: the keywords of the whole find nothing wrong with it, where what a part
finds wrong is what it finds wrong by itself. -/
theorem accepts_iff_judge
    (hstands : ∀ part ∈ parts, ∃ tokens, (tokens, part.json) ∈ Json.inside whole.keywords)
    (hresolve : Extension.resolve (whole.settings options).keywords = .ok extensions) (value : Json) :
    ∃ judge : Judge, JudgedAlike options parts judge
      ∧ (whole.Accepts options value ↔ ∀ entry ∈ whole.keywords,
        (whole.matcherWith options extensions).keywordViolations judge plainScope whole.keywords
          entry.1 entry.2 value = []) := by
  have hplain := h.ofPlain hparts hdraft extensions
  have hroot : (whole.matcherWith options extensions).document.root = whole.json := by
    rw [hplain.document, Document.root_ofJson, h.kept_eq]
  have hdepth := (whole.matcherWith options extensions).depth_lt_budget value
  rw [hroot] at hdepth
  obtain ⟨steps, hbudget⟩ := Nat.exists_eq_succ_of_ne_zero (Nat.ne_zero_of_lt hdepth)
  have hsteps : whole.json.depth ≤ steps := Nat.le_of_lt_succ (hbudget ▸ hdepth)
  refine ⟨(whole.matcherWith options extensions).judge steps, fun part hpart inner => ?_, ?_⟩
  · have hpartPlain := (hparts part hpart).ofPlain extensions
    have hcompiles := (hparts part hpart).compilesWith (hretains part hpart) hresolve
    have hpartDepth := (part.matcherWith options extensions).depth_lt_budget inner
    obtain ⟨tokens, hstands⟩ := hstands part hpart
    have hless : part.json.depth < whole.json.depth := Json.depth_lt_of_mem_inside hstands
    rw [hpartPlain.document, Document.root_ofJson] at hpartDepth
    rw [accepts_iff_of_compilesWith hcompiles, Matcher.accepts, Matcher.violations,
      Matcher.violationsOf, List.isEmpty_iff, hpartPlain.document,
      Document.root_ofJson, Plan.scope_ofJson]
    rw [Matcher.judge_eq_of_plain ((hretains part hpart).akin extensions).symm hpartPlain.plain
      hpartPlain.wellFormed rfl (Nat.lt_of_lt_of_le hless hsteps) hpartDepth]
  · rw [accepts_iff_of_compilesWith (h.compiles hparts hretains hdraft hresolve), Matcher.accepts,
      Matcher.violations, Matcher.violationsOf, List.isEmpty_iff, hbudget, hroot, hplain.document,
      Plan.scope_ofJson]
    change Matcher.nodeViolations _ _ (Scope.enter plainScope whole.keywords) whole.keywords value = [] ↔ _
    have heffective : Matcher.effectiveKeywords .draft7 whole.keywords = whole.keywords := by
      rw [Matcher.effectiveKeywords, Draft.reference?, h.lookup_eq_none (by decide)]
      rfl
    rw [show plainScope.enter whole.keywords = plainScope from h.enter_eq, Matcher.nodeViolations,
      heffective, List.flatMap_eq_nil_iff]

end ComposedOf

end Fragment

end SchemaAlgebra
