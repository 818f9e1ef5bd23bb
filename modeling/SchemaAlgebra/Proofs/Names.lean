import SchemaAlgebra.Proofs.Compilation
import SchemaAlgebra.Proofs.Records
import SchemaAlgebra.Proofs.Subschemas

/-!
# Names that compilation resolves

A schema names classes and transforms.  If what it says under these keywords is legible, then
compilation fails over a name just when some subschema names a class that the registry lacks, or a
transform that neither the options nor the record of that subschema have
(`Validator.compile_unknown_iff`): no other failure comes before that one, and where the check of names
passes, no node of the plan lacks a transform, as nodes are subschemas where there are no references.

* `Registry.contains_build_iff` — where the classes of a registry come from.
-/

namespace SchemaAlgebra

/-! ## Names in keywords -/

/-- The classes that a schema names. -/
def namedClasses (keywords : Entries Json) : List String :=
  ((Entries.lookup "instanceOf" keywords).bind namesOf?).getD []

/-- The transforms that a schema names. -/
def namedTransforms (keywords : Entries Json) : List String :=
  ((Entries.lookup "transform" keywords).bind fun argument =>
    argument.items?.bind namesOfItems?).getD []

/-- A schema refers to nothing, and what it says about classes and transforms are names; those of
classes are `known`. -/
structure Legible (known : String → Prop) (keywords : Entries Json) : Prop where
  refFree : Entries.lookup "$ref" keywords = none
  classes : ∀ argument, Entries.lookup "instanceOf" keywords = some argument →
    ∃ names, namesOf? argument = some names ∧ ∀ name ∈ names, known name
  transforms : ∀ argument, Entries.lookup "transform" keywords = some argument →
    ∃ names, argument.items?.bind namesOfItems? = some names

lemma Legible.known_of_mem {known : String → Prop} {keywords : Entries Json} {name : String}
    (h : Legible known keywords) (hname : name ∈ namedClasses keywords) : known name := by
  unfold namedClasses at hname
  cases hargument : Entries.lookup "instanceOf" keywords with
  | none => simp [hargument] at hname
  | some argument =>
    obtain ⟨names, hnames, hknown⟩ := h.classes argument hargument
    simp only [hargument, Option.bind_some, hnames, Option.getD_some] at hname
    exact hknown name hname

namespace CompileError

/-- The error is that a class or a transform is not known. -/
def IsUnknownName : CompileError → Prop
  | unknownTransform _ _ | unknownClass _ _ => True
  | _ => False

end CompileError

/-! ## Classes -/

/-- A record of the fragment carries a class with this name. -/
def Fragment.CarriesClass (f : Fragment) (name : String) : Prop :=
  ∃ cls, (name, cls) ∈ Registry.carried f

namespace Registry

lemma contains_insert {entries : Entries Class} {key name : String} {cls : Class} :
    (Entries.lookup name (Entries.insert key cls entries)).isSome = true
      ↔ key = name ∨ (Entries.lookup name entries).isSome = true := by
  by_cases h : key = name
  · subst h
    simp
  · simp [Entries.lookup_insert_of_ne h, h]

lemma contains_enter {pairs entries : Entries Class} {name : String} :
    (Entries.lookup name (Entries.enter pairs entries)).isSome = true
      ↔ (∃ pair ∈ pairs, pair.1 = name) ∨ (Entries.lookup name entries).isSome = true := by
  induction pairs generalizing entries with
  | nil => simp [Entries.enter]
  | cons pair rest ih =>
    have henter : Entries.enter (pair :: rest) entries
        = Entries.enter rest (Entries.insert pair.1 pair.2 entries) := rfl
    rw [henter, ih, contains_insert]
    simp only [List.mem_cons, exists_eq_or_imp]
    rw [or_left_comm, or_assoc]

lemma contains_foldl {named : List (String × Class)} {table : Table Class} {name : String} :
    ((named.foldl fallBackOn table).lookup name).isSome = true
      ↔ (∃ pair ∈ named, pair.1 = name) ∨ (table.lookup name).isSome = true := by
  induction named generalizing table with
  | nil => simp
  | cons pair rest ih =>
    have hstep : ((fallBackOn table pair).lookup name).isSome = true
        ↔ pair.1 = name ∨ (table.lookup name).isSome = true := by
      unfold fallBackOn
      split
      · rename_i hcontains
        have hcontains : (table.lookup pair.1).isSome = true :=
          (Entries.contains_eq_isSome pair.1 table.entries).symm.trans hcontains
        refine ⟨Or.inr, ?_⟩
        rintro (rfl | h)
        · exact hcontains
        · exact h
      · exact contains_insert
    rw [List.foldl_cons, ih, hstep]
    simp only [List.mem_cons, exists_eq_or_imp]
    rw [or_left_comm, or_assoc]

/-- **The classes of a registry** are the built-in, the configured and the carried ones. -/
lemma contains_build_iff {options : Options} {f : Fragment} {name : String} :
    (build options f).contains name = true ↔ Class.builtins.contains name = true
      ∨ (∃ cls ∈ options.classes, cls.name = name) ∨ f.CarriesClass name := by
  have hcontains : ∀ table : Table Class,
      table.contains name = true ↔ (table.lookup name).isSome = true := fun table => by
    rw [Table.contains, Entries.contains_eq_isSome]
    rfl
  have hcarried : (∃ pair ∈ carried f, pair.1 = name) ↔ f.CarriesClass name := by
    constructor
    · rintro ⟨⟨_, cls⟩, hmem, rfl⟩
      exact ⟨cls, hmem⟩
    · rintro ⟨cls, hmem⟩
      exact ⟨(name, cls), hmem, rfl⟩
  have hbuilt : (build options f).contains name = true
      ↔ ((build options f).classes.lookup name).isSome = true := hcontains _
  have hconfigured : ((Class.builtins.enter (options.classes.map fun cls =>
      (cls.name, cls))).lookup name).isSome = true
        ↔ Class.builtins.contains name = true ∨ ∃ cls ∈ options.classes, cls.name = name := by
    refine contains_enter.trans ?_
    rw [hcontains, or_comm]
    simp [Table.lookup]
  rw [hbuilt, build, contains_foldl, hcarried, hconfigured, or_comm, or_assoc]

end Registry

/-! ## Checks -/

namespace Fragment

variable {f : Fragment} {options : Options} {registry : Registry} {pointer : Pointer}
  {keywords : Entries Json} {known : String → Prop}

lemma checkClasses_of_legible (registry : Registry) (pointer : Pointer)
    (h : Legible known keywords) :
    (checkClasses registry pointer keywords = .ok ()
      ∧ ∀ name ∈ namedClasses keywords, registry.contains name = true)
    ∨ ((∃ error, checkClasses registry pointer keywords = .error error ∧ error.IsUnknownName)
      ∧ ∃ name ∈ namedClasses keywords, registry.contains name = false) := by
  unfold checkClasses namedClasses
  cases hargument : Entries.lookup "instanceOf" keywords with
  | none => simp
  | some argument =>
    obtain ⟨names, hnames, -⟩ := h.classes argument hargument
    simp only [Assertion.readInstanceOf, hnames, Option.bind_some, Option.getD_some]
    cases hfind : names.find? fun name => !registry.contains name with
    | none => exact Or.inl ⟨rfl, by simpa using hfind⟩
    | some unknown =>
      refine Or.inr ⟨⟨_, rfl, trivial⟩, unknown, List.mem_of_find?_eq_some hfind, ?_⟩
      simpa using List.find?_some hfind

lemma checkTransforms_of_legible (f : Fragment) (options : Options) (pointer : Pointer)
    (h : Legible known keywords) :
    (f.checkTransforms options pointer keywords = .ok ()
      ∧ ∀ name ∈ namedTransforms keywords, f.knowsTransform options pointer name = true)
    ∨ ((∃ error, f.checkTransforms options pointer keywords = .error error ∧ error.IsUnknownName)
      ∧ ∃ name ∈ namedTransforms keywords, f.knowsTransform options pointer name = false) := by
  unfold checkTransforms namedTransforms
  cases hargument : Entries.lookup "transform" keywords with
  | none => simp
  | some argument =>
    obtain ⟨names, hnames⟩ := h.transforms argument hargument
    simp only [hnames, Option.bind_some, Option.getD_some]
    cases hfind : names.find? fun name => !f.knowsTransform options pointer name with
    | none => exact Or.inl ⟨rfl, by simpa using hfind⟩
    | some unknown =>
      refine Or.inr ⟨⟨_, rfl, trivial⟩, unknown, List.mem_of_find?_eq_some hfind, ?_⟩
      simpa using List.find?_some hfind

/-- Where the check of transforms passes, what a schema lists are names of known ones. -/
lemma exists_names_of_checkTransforms {items : List Json}
    (h : f.checkTransforms options pointer keywords = .ok ())
    (hitems : Entries.lookup "transform" keywords = some (.array items)) :
    ∃ names, namesOfItems? items = some names
      ∧ ∀ name ∈ names, f.knowsTransform options pointer name = true := by
  rw [checkTransforms, hitems] at h
  cases hnames : namesOfItems? items with
  | none => simp [Json.items?, hnames] at h
  | some names =>
    refine ⟨names, rfl, fun name hname => ?_⟩
    simp only [Json.items?, Option.bind_some, hnames] at h
    cases hfind : names.find? fun name => !f.knowsTransform options pointer name with
    | none => simpa using List.find?_eq_none.1 hfind name hname
    | some unknown => simp [hfind] at h

/-- A subschema names a class that is not in the registry, or a transform that is unknown. -/
def LacksAt (f : Fragment) (options : Options) (registry : Registry)
    (entry : Pointer × Entries Json) : Prop :=
  (∃ name ∈ namedClasses entry.2, registry.contains name = false)
    ∨ ∃ name ∈ namedTransforms entry.2, f.knowsTransform options entry.1 name = false

/-- The check of names at a subschema. -/
def checkAt (f : Fragment) (options : Options) (registry : Registry)
    (entry : Pointer × Entries Json) : Except CompileError Unit := do
  checkClasses registry entry.1 entry.2
  f.checkTransforms options entry.1 entry.2

lemma checkAt_of_legible (f : Fragment) (options : Options) (registry : Registry)
    {entry : Pointer × Entries Json} (h : Legible known entry.2) :
    (f.checkAt options registry entry = .ok () ∧ ¬f.LacksAt options registry entry)
      ∨ ((∃ error, f.checkAt options registry entry = .error error ∧ error.IsUnknownName)
        ∧ f.LacksAt options registry entry) := by
  unfold checkAt
  rcases checkClasses_of_legible registry entry.1 h with
    ⟨hclasses, hknown⟩ | ⟨⟨error, herror, hunknown⟩, hlacks⟩
  · rw [hclasses]
    rcases checkTransforms_of_legible f options entry.1 h with
      ⟨htransforms, hresolved⟩ | ⟨⟨error, herror, hunknown⟩, hlacks⟩
    · refine Or.inl ⟨htransforms, ?_⟩
      rintro (⟨name, hname, hlacks⟩ | ⟨name, hname, hlacks⟩)
      · simp [hknown name hname] at hlacks
      · simp [hresolved name hname] at hlacks
    · exact Or.inr ⟨⟨error, herror, hunknown⟩, Or.inr hlacks⟩
  · rw [herror]
    exact Or.inr ⟨⟨error, rfl, hunknown⟩, Or.inl hlacks⟩

lemma forM_cases {ε α : Type} (g : α → Except ε Unit) (items : List α) :
    (items.forM g = .ok () ∧ ∀ a ∈ items, g a = .ok ())
      ∨ ∃ a ∈ items, ∃ error, g a = .error error ∧ items.forM g = .error error := by
  induction items with
  | nil => exact Or.inl ⟨rfl, by simp⟩
  | cons a items ih =>
    have hcons : (a :: items).forM g = g a >>= fun _ => items.forM g := rfl
    rw [hcons]
    cases h : g a with
    | error error => exact Or.inr ⟨a, List.mem_cons_self, error, h, rfl⟩
    | ok _ =>
      rcases ih with ⟨hrest, hall⟩ | ⟨b, hb, error, herror, hrest⟩
      · exact Or.inl ⟨hrest, List.forall_mem_cons.2 ⟨h, hall⟩⟩
      · exact Or.inr ⟨b, List.mem_cons_of_mem _ hb, error, herror, hrest⟩

/-- Where the check of names passes, so does the check of transforms at each subschema. -/
lemma checkTransforms_of_checkNames (h : f.checkNames options registry = .ok ())
    {entry : Pointer × Entries Json} (hentry : entry ∈ f.json.subschemas) :
    f.checkTransforms options entry.1 entry.2 = .ok () := by
  rcases forM_cases (f.checkAt options registry) f.json.subschemas with
    ⟨-, hall⟩ | ⟨_, _, error, -, herror⟩
  · obtain ⟨_, -, htransforms⟩ := bind_eq_ok.1 (hall entry hentry)
    exact htransforms
  · exact absurd (h.symm.trans herror) (by simp)

/-- Some subschema lacks a name. -/
def LacksName (f : Fragment) (options : Options) (registry : Registry) : Prop :=
  ∃ entry ∈ f.json.subschemas, f.LacksAt options registry entry

/-- **The check of names** fails over a name just when one is lacking. -/
lemma checkNames_of_legible (options : Options) (registry : Registry)
    (h : ∀ entry ∈ f.json.subschemas, Legible known entry.2) :
    (f.checkNames options registry = .ok () ∧ ¬f.LacksName options registry)
      ∨ ((∃ error, f.checkNames options registry = .error error ∧ error.IsUnknownName)
        ∧ f.LacksName options registry) := by
  rcases forM_cases (f.checkAt options registry) f.json.subschemas with
    ⟨hok, hall⟩ | ⟨entry, hentry, error, herror, hfails⟩
  · refine Or.inl ⟨hok, ?_⟩
    rintro ⟨entry, hentry, hlacks⟩
    rcases checkAt_of_legible f options registry (h entry hentry) with ⟨-, hnot⟩ | ⟨⟨error, herror, -⟩, -⟩
    · exact hnot hlacks
    · simp [hall entry hentry] at herror
  · rcases checkAt_of_legible f options registry (h entry hentry) with
      ⟨hok, -⟩ | ⟨⟨error', herror', hunknown⟩, hlacks⟩
    · simp [hok] at herror
    · obtain rfl := Except.error.inj (herror.symm.trans herror')
      exact Or.inr ⟨⟨error, hfails, hunknown⟩, entry, hentry, hlacks⟩

end Fragment

/-! ## Plans -/

lemma bind_eq_error {ε α β : Type} {x : Except ε α} {next : α → Except ε β} {error : ε} :
    x >>= next = .error error ↔ x = .error error ∨ ∃ a, x = .ok a ∧ next a = .error error := by
  cases x <;> simp [bind, Except.bind]

/-- A traversal that fails does so with one of the elements. -/
lemma mapM_eq_error {ε α β : Type} {g : α → Except ε β} {items : List α} {error : ε}
    (h : items.mapM g = .error error) : ∃ a ∈ items, g a = .error error := by
  induction items with
  | nil => simp [pure, Except.pure] at h
  | cons a items ih =>
    rw [List.mapM_cons] at h
    rcases bind_eq_error.1 h with h | ⟨b, -, h⟩
    · exact ⟨a, List.mem_cons_self, h⟩
    · rcases bind_eq_error.1 h with h | ⟨bs, -, h⟩
      · obtain ⟨c, hc, hfails⟩ := ih h
        exact ⟨c, List.mem_cons_of_mem _ hc, hfails⟩
      · simp [pure, Except.pure] at h

namespace Plan

open Fragment

variable {build : MatcherBuilder} {f : Fragment} {options : Options} {registry : Registry}
  {known : String → Prop} {pointer : Pointer} {error : CompileError}

lemma knowsTransform_eq (name : String) :
    f.knowsTransform options pointer name = (transform? f options pointer name).isSome := by
  have hcontains : ∀ table : Table Transform, table.contains name = (table.lookup name).isSome :=
    fun table => Entries.contains_eq_isSome name table.entries
  rw [knowsTransform, transform?, hcontains, Option.isSome_or]
  cases (f.recordAt? pointer).bind Metadata.transforms <;> simp [hcontains]

/-- Names stand for transforms if each does. -/
lemma exists_resolveChain_iff {items : List Json} :
    (∃ chain, resolveChain f options pointer items = .ok chain)
      ↔ ∀ item ∈ items, f.knowsTransform options pointer ((item.string?).getD "") = true := by
  induction items with
  | nil => simp [resolveChain]
  | cons item items ih =>
    rw [List.forall_mem_cons, ← ih, knowsTransform_eq]
    dsimp only [resolveChain]
    cases transform? f options pointer ((item.string?).getD "") with
    | none => simp
    | some transform =>
      cases resolveChain f options pointer items with
      | ok chain => simp [bind, Except.bind, pure, Except.pure]
      | error error => simp [bind, Except.bind]

lemma resolveChain_ok {items : List Json} {names : List String}
    (hnames : namesOfItems? items = some names)
    (h : ∀ name ∈ names, f.knowsTransform options pointer name = true) :
    ∃ chain, resolveChain f options pointer items = .ok chain := by
  refine exists_resolveChain_iff.2 ?_
  induction items generalizing names with
  | nil => simp
  | cons item items ih =>
    simp only [namesOfItems?, List.mapM_cons] at hnames
    obtain ⟨name, hname, hnames⟩ := Option.bind_eq_some_iff.1 hnames
    obtain ⟨rest, hrest, hnames⟩ := Option.bind_eq_some_iff.1 hnames
    obtain rfl := Option.some.inj hnames
    rw [List.forall_mem_cons] at h ⊢
    rw [hname]
    exact ⟨h.1, ih hrest h.2⟩

/-- **The transforms of a node are found** if no part of it that the plan leaves out names any, and each
that it names is known. -/
lemma exists_chainAt_iff {document : Json} : (∃ chain, chainAt f options document pointer = .ok chain)
    ↔ ∀ keywords, Outline.keywordsAt? document pointer = some keywords →
        misplaced? pointer keywords = none
          ∧ ∀ items, Entries.lookup "transform" keywords = some (.array items) →
            ∃ chain, resolveChain f options pointer items = .ok chain := by
  unfold chainAt
  cases Outline.keywordsAt? document pointer with
  | none => simp
  | some keywords =>
    simp only [Option.some.injEq, forall_eq']
    cases misplaced? pointer keywords with
    | some place => simp
    | none =>
      dsimp only
      split
      · rename_i items hitems
        simp [hitems]
      · rename_i hnot
        simp only [true_and]
        exact iff_of_true ⟨[], rfl⟩ fun items hitems => absurd hitems (hnot items)

/-- Where the check of transforms passes, they are found. -/
lemma chainAt_ne_unknown_of_checked {document : Json}
    (hchecked : ∀ keywords, Outline.keywordsAt? document pointer = some keywords →
      f.checkTransforms options pointer keywords = .ok ())
    (h : chainAt f options document pointer = .error error) : ¬error.IsUnknownName := by
  unfold chainAt at h
  split at h
  · simp at h
  · rename_i keywords hkeywords
    split at h
    · obtain rfl := Except.error.inj h
      exact id
    · split at h
      · rename_i items hitems
        obtain ⟨names, hnames, hknown⟩ :=
          exists_names_of_checkTransforms (hchecked keywords hkeywords) hitems
        obtain ⟨chain, hchain⟩ := resolveChain_ok hnames hknown
        simp [hchain] at h
      · simp at h

/-- Where no name is lacking, the transforms of each node are found, as the node is a subschema. -/
lemma chainAt_ne_unknown (hlegible : ∀ entry ∈ f.json.subschemas, Legible known entry.2)
    (hlacks : ¬f.LacksName options registry) (hpointer : pointer ∈ Outline.nodes f.json)
    (h : chainAt f options f.json pointer = .error error) : ¬error.IsUnknownName := by
  have href : ∀ path keywords, f.json.Holds path keywords →
      Entries.contains "$ref" keywords = false := by
    intro path keywords hholds
    have hmem : (Pointer.join "" path, keywords) ∈ f.json.subschemas :=
      Json.mem_subschemas.2 ⟨path, hholds, rfl⟩
    rw [Entries.contains_eq_isSome, (hlegible _ hmem).refFree]
    rfl
  obtain ⟨path, rfl, hholds⟩ := Outline.holds_of_mem_nodes href hpointer
  refine chainAt_ne_unknown_of_checked (fun keywords hkeywords => ?_) h
  have hmem : (Pointer.join "" path, keywords) ∈ f.json.subschemas :=
    Json.mem_subschemas.2 ⟨path, hholds keywords hkeywords, rfl⟩
  rcases checkTransforms_of_legible f options (Pointer.join "" path) (hlegible _ hmem) with
    ⟨hok, -⟩ | ⟨-, hname⟩
  · exact hok
  · exact absurd ⟨_, hmem, Or.inr hname⟩ hlacks

lemma ne_unknown_of_build {α : Type} {x : Except BuildFault α}
    (h : x.mapError .build = .error error) : ¬error.IsUnknownName := by
  cases x with
  | ok a => simp [Except.mapError] at h
  | error fault =>
    obtain rfl := Except.error.inj h
    exact id

lemma ne_unknown_of_buildAll {documents : List (Json × Pointer)}
    (h : buildAll build documents = .error error) : ¬error.IsUnknownName := by
  obtain ⟨⟨document, pointer⟩, -, h⟩ := mapM_eq_error h
  rcases bind_eq_error.1 h with h | ⟨m, -, h⟩
  · exact ne_unknown_of_build h
  · simp [pure, Except.pure] at h

lemma assembleNode_ne_unknown {document : Json} {active : List Pointer} {entry : Pointer × Chain}
    (h : assembleNode build document active entry = .error error) : ¬error.IsUnknownName := by
  rcases bind_eq_error.1 h with h | ⟨patterns, -, h⟩
  · exact ne_unknown_of_buildAll h
  rcases bind_eq_error.1 h with h | ⟨branches, -, h⟩
  · unfold branchMatchers at h
    split at h
    · exact ne_unknown_of_buildAll h
    · simp at h
  rcases bind_eq_error.1 h with h | ⟨condition, -, h⟩
  · unfold conditionMatcher at h
    split at h
    · split at h
      · rw [← bind_pure_comp] at h
        rcases bind_eq_error.1 h with h | ⟨m, -, h⟩
        · exact ne_unknown_of_build h
        · simp [pure, Except.pure] at h
      · simp at h
    · simp at h
  · simp [pure, Except.pure] at h

/-- A plan fails over a name only where the transforms of a node are looked for. -/
lemma compile_ne_unknown_of_chains (hchains : ∀ pointer ∈ Outline.nodes f.json, ∀ error,
      chainAt f options f.json pointer = .error error → ¬error.IsUnknownName)
    (h : compile build f options = .error error) : ¬error.IsUnknownName := by
  rcases bind_eq_error.1 h with h | ⟨chains, -, h⟩
  · obtain ⟨pointer, hpointer, h⟩ := mapM_eq_error h
    rcases bind_eq_error.1 h with h | ⟨chain, -, h⟩
    · exact hchains pointer hpointer error h
    · simp [pure, Except.pure] at h
  · rcases bind_eq_error.1 h with h | ⟨nodes, -, h⟩
    · obtain ⟨entry, -, h⟩ := mapM_eq_error h
      exact assembleNode_ne_unknown h
    · simp [pure, Except.pure] at h

lemma compile_ne_unknown (hlegible : ∀ entry ∈ f.json.subschemas, Legible known entry.2)
    (hlacks : ¬f.LacksName options registry) (h : compile build f options = .error error) :
    ¬error.IsUnknownName :=
  compile_ne_unknown_of_chains
    (fun _ hpointer _ hchain => chainAt_ne_unknown hlegible hlacks hpointer hchain) h

end Plan

namespace Validator

variable {f : Fragment} {known : String → Prop}

/-- **Failing over a name.**  Compilation does so just when a subschema lacks a name. -/
theorem compile_unknown_iff {options : Option Options} {extensions : List Extension}
    (hlegible : ∀ entry ∈ f.json.subschemas, Legible known entry.2)
    (hextensions : Extension.resolve (Options.merged f.options? options).keywords = .ok extensions) :
    (∃ error, compile f options = .error error ∧ error.IsUnknownName)
      ↔ f.LacksName (Options.merged f.options? options)
        (Registry.build (Options.merged f.options? options) f) := by
  have hcompile : compile f options = compileWith f (Options.merged f.options? options) := rfl
  rw [hcompile]
  generalize Options.merged f.options? options = settings at hextensions ⊢
  unfold compileWith
  simp only [hextensions]
  rcases Fragment.checkNames_of_legible settings (Registry.build settings f) hlegible with
    ⟨hok, hlacks⟩ | ⟨⟨error, herror, hunknown⟩, hlacks⟩
  · refine iff_of_false ?_ hlacks
    rintro ⟨error, herror, hunknown⟩
    rcases bind_eq_error.1 herror with h | ⟨_, -, herror⟩
    · simp [Except.mapError] at h
    rcases bind_eq_error.1 herror with h | ⟨_, -, herror⟩
    · simp [hok] at h
    rcases bind_eq_error.1 herror with h | ⟨matcher, -, herror⟩
    · exact Plan.ne_unknown_of_build h hunknown
    rcases bind_eq_error.1 herror with h | ⟨plan, -, herror⟩
    · exact Plan.compile_ne_unknown hlegible hlacks h hunknown
    · simp [pure, Except.pure] at herror
  · refine iff_of_true ⟨error, ?_, hunknown⟩ hlacks
    rw [herror]
    rfl

end Validator

end SchemaAlgebra
