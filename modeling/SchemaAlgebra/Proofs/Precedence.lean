import SchemaAlgebra.Proofs.Composition

/-!
# Which class a name stands for

Classes come from the options attached to a schema, from those given when it is compiled, from the
built-in ones, and from the records of the schema.  A registry lets a later configured class replace
an earlier one of its name, but options laid over others keep the first, so that the list a registry
is built from has every name once.

* `Registry.get?_build` — the class that a name stands for in a registry.
* `Options.find?_classes_overlay` — the class of a name in options laid over others.
* **`Fragment.class_precedence`** — in a compiled schema a name stands for the first class of that
  name among the attached and the given ones, or else for a built-in class, or else for the first one
  that the schema carries.
-/

namespace SchemaAlgebra

/-! ## Look-ups -/

namespace Entries

variable {α : Type} {entries others : Entries α}

lemma lookup_flatMap {β : Type} (g : β → Entries α) (items : List β) (key : String) :
    lookup key (items.flatMap g) = items.findSome? fun item => lookup key (g item) := by
  induction items with
  | nil => rfl
  | cons item rest ih =>
    rw [List.flatMap_cons, lookup_append, ih, List.findSome?_cons]
    cases lookup key (g item) <;> rfl

end Entries

/-! ## Classes of one name -/

namespace Class

variable {classes : List Class}

/-- The first class called `name`. -/
def first? (name : String) (classes : List Class) : Option Class :=
  classes.find? fun cls => cls.name == name

/-- The last class called `name`. -/
def last? (name : String) (classes : List Class) : Option Class :=
  first? name classes.reverse

lemma lookup_map_name (name : String) (classes : List Class) :
    Entries.lookup name (classes.map fun cls => (cls.name, cls)) = first? name classes := by
  induction classes with
  | nil => rfl
  | cons cls rest ih =>
    by_cases hname : cls.name = name
    · subst hname
      simp [first?]
    · rw [List.map_cons, Entries.lookup_cons_of_ne hname, ih, first?, first?,
        List.find?_cons_of_neg (by simpa using hname)]

lemma last?_of_nodup (h : (classes.map Class.name).Nodup) (name : String) :
    last? name classes = first? name classes := by
  have hkeys : ((classes.map fun cls => (cls.name, cls)).map Prod.fst).Nodup := by
    rwa [List.map_map]
  have hreverse := Entries.lookup_reverse hkeys name
  rwa [← List.map_reverse, lookup_map_name, lookup_map_name] at hreverse

lemma isSome_last? (name : String) (classes : List Class) :
    (last? name classes).isSome = (first? name classes).isSome := by
  rw [Bool.eq_iff_iff, last?, first?, first?, List.find?_isSome, List.find?_isSome]
  simp

end Class

/-! ## Lists without repetitions -/

section Dedupe

variable {α : Type} (key : α → String)

/-- Adds an item, unless its key is taken. -/
def addNew (kept : List α) (item : α) : List α :=
  if kept.any (key · == key item) then kept else kept ++ [item]

variable {key}

lemma find?_addNew (kept : List α) (item : α) (wanted : String) :
    (addNew key kept item).find? (key · == wanted) = (kept ++ [item]).find? (key · == wanted) := by
  unfold addNew
  split
  · rename_i htaken
    obtain ⟨earlier, hearlier, hkey⟩ := List.any_eq_true.1 htaken
    rw [List.find?_append]
    by_cases hwanted : key item = wanted
    · have hfound : (kept.find? (key · == wanted)).isSome = true :=
        List.find?_isSome.2 ⟨earlier, hearlier, by rwa [← hwanted]⟩
      rw [Option.or_of_isSome hfound]
    · rw [List.find?_cons_of_neg (by simpa using hwanted), List.find?_nil, Option.or_none]
  · rfl

lemma nodup_addNew {kept : List α} (h : (kept.map key).Nodup) (item : α) :
    ((addNew key kept item).map key).Nodup := by
  unfold addNew
  split
  · exact h
  · rename_i hnew
    rw [List.map_append, List.map_singleton, ← List.concat_eq_append, List.nodup_concat]
    refine ⟨fun hmem => hnew ?_, h⟩
    obtain ⟨earlier, hearlier, hkey⟩ := List.mem_map.1 hmem
    exact List.any_eq_true.2 ⟨earlier, hearlier, by simpa using hkey⟩

lemma find?_foldl_addNew (items kept : List α) (wanted : String) :
    (items.foldl (addNew key) kept).find? (key · == wanted)
      = (kept ++ items).find? (key · == wanted) := by
  induction items generalizing kept with
  | nil => rw [List.foldl_nil, List.append_nil]
  | cons item rest ih =>
    rw [List.foldl_cons, ih, List.find?_append, find?_addNew, ← List.find?_append, List.append_assoc,
      List.singleton_append]

lemma nodup_foldl_addNew (items : List α) {kept : List α} (h : (kept.map key).Nodup) :
    ((items.foldl (addNew key) kept).map key).Nodup := by
  induction items generalizing kept with
  | nil => exact h
  | cons item rest ih => exact ih (nodup_addNew h item)

end Dedupe

namespace Options

/-- **The class of a name** in options laid over others is the first one. -/
lemma find?_classes_overlay (attached explicit : Options) (name : String) :
    Class.first? name (attached.overlay explicit).classes
      = Class.first? name (attached.classes ++ explicit.classes) :=
  find?_foldl_addNew (attached.classes ++ explicit.classes) [] name

lemma nodup_classes_overlay (attached explicit : Options) :
    ((attached.overlay explicit).classes.map Class.name).Nodup :=
  nodup_foldl_addNew (attached.classes ++ explicit.classes) List.nodup_nil

end Options

/-! ## Registries -/

/-- The first class called `name` that the nodes of a schema carry, in pointer order. -/
def Fragment.carriedClass? (f : Fragment) (name : String) : Option Class :=
  f.records.entries.findSome? fun record => record.2.constructors.bind fun table => table.lookup name

namespace Registry

lemma lookup_carried (f : Fragment) (name : String) :
    Entries.lookup name (carried f) = f.carriedClass? name := by
  rw [carried, Entries.lookup_flatMap]
  refine congrArg (f.records.entries.findSome? ·) (funext fun record => ?_)
  cases record.2.constructors <;> rfl

lemma lookup_fallBackOn (table : Table Class) (named : String × Class) (name : String) :
    (fallBackOn table named).lookup name = (table.lookup name).or (Entries.lookup name [named]) := by
  obtain ⟨other, cls⟩ := named
  have hcontains : table.contains other = (table.lookup other).isSome :=
    Entries.contains_eq_isSome other table.entries
  rw [fallBackOn, hcontains]
  by_cases hname : other = name
  · subst hname
    cases hlookup : table.lookup other <;> simp [hlookup]
  · rw [Entries.lookup_cons_of_ne hname, Entries.lookup_nil, Option.or_none]
    split
    · rfl
    · exact Table.lookup_insert_of_ne table hname cls

/-- Of the classes to fall back on, the first of a name is taken. -/
lemma lookup_foldl_fallBackOn (named : List (String × Class)) (table : Table Class) (name : String) :
    (named.foldl fallBackOn table).lookup name
      = (table.lookup name).or (Entries.lookup name named) := by
  induction named generalizing table with
  | nil => exact Option.or_none.symm
  | cons pair rest ih =>
    rw [List.foldl_cons, ih, lookup_fallBackOn, Option.or_assoc, ← Entries.lookup_append,
      List.singleton_append]

/-- **The class of a name** is the last configured one, or else a built-in one, or else the first one
that a node of the schema carries. -/
theorem get?_build (options : Options) (f : Fragment) (name : String) :
    (build options f).get? name = (Class.last? name options.classes).or
      ((Class.builtins.lookup name).or (f.carriedClass? name)) := by
  have hconfigured : (Class.builtins.enter (options.classes.map fun cls => (cls.name, cls))).lookup name
      = (Class.last? name options.classes).or (Class.builtins.lookup name) := by
    refine (Entries.lookup_enter_reverse _ _ name).trans ?_
    rw [← List.map_reverse, Class.lookup_map_name]
    rfl
  have hbuild : (build options f).get? name = ((carried f).foldl fallBackOn
      (Class.builtins.enter (options.classes.map fun cls => (cls.name, cls)))).lookup name := rfl
  rw [hbuild, lookup_foldl_fallBackOn, hconfigured, lookup_carried, Option.or_assoc]

lemma ext_get? {registry other : Registry} (h : ∀ name, registry.get? name = other.get? name) :
    registry = other := by
  cases registry
  cases other
  exact congrArg Registry.mk (Table.ext_lookup h)

/-- Registries agree if, under every name, the same class was configured last. -/
lemma build_eq_build_iff {options others : Options} {f : Fragment}
    (hnamed : ∀ name, (Class.last? name options.classes).isSome
      = (Class.last? name others.classes).isSome) : build options f = build others f
      ↔ ∀ name, Class.last? name options.classes = Class.last? name others.classes := by
  constructor
  · intro heq name
    have hget : (build options f).get? name = (build others f).get? name := by rw [heq]
    have hnamed := hnamed name
    rw [get?_build, get?_build] at hget
    cases hlast : Class.last? name options.classes with
    | none =>
      rw [hlast] at hnamed
      exact (Option.isNone_iff_eq_none.1 (by simpa using hnamed.symm)).symm
    | some cls =>
      rw [hlast] at hnamed
      obtain ⟨other, hother⟩ := Option.isSome_iff_exists.1 hnamed.symm
      rw [hlast, hother, Option.some_or, Option.some_or] at hget
      rw [hother, hget]
  · exact fun h => ext_get? fun name => by rw [get?_build, get?_build, h]

end Registry

/-! ## Matchers of a validator -/

namespace Plan

/-- The matchers that a plan uses: of patterns, of branches and of conditions. -/
def matchers (plan : Plan) : List Matcher :=
  plan.nodes.flatMap fun node =>
    node.patterns.map Prod.fst ++ node.branches.map Prod.fst ++ node.condition.toList

variable {build : MatcherBuilder} {matcher : Matcher}

lemma exists_build_of_buildAll {documents : List (Json × Pointer)} {built : List (Matcher × Pointer)}
    (h : buildAll build documents = .ok built) (hmatcher : matcher ∈ built.map Prod.fst) :
    ∃ document, build document = .ok matcher := by
  obtain ⟨entry, hentry, rfl⟩ := List.mem_map.1 hmatcher
  obtain ⟨source, -, hbuilt⟩ := (mapM_eq_ok h).2 entry hentry
  obtain ⟨other, hother, hbuilt⟩ := bind_eq_ok.1 hbuilt
  obtain rfl := Except.ok.inj hbuilt
  exact ⟨source.1, mapError_eq_ok.1 hother⟩

/-- Every matcher that a compiled plan uses was built of some document. -/
lemma exists_build_of_mem_matchers {schema : Fragment} {options : Options} {plan : Plan}
    (h : compile build schema options = .ok plan) (hmatcher : matcher ∈ plan.matchers) :
    ∃ document, build document = .ok matcher := by
  obtain ⟨entries, -, h⟩ := bind_eq_ok.1 h
  obtain ⟨nodes, hnodes, h⟩ := bind_eq_ok.1 h
  obtain rfl := Except.ok.inj h
  obtain ⟨node, hnode, hmatcher⟩ := List.mem_flatMap.1 hmatcher
  obtain ⟨entry, -, hassembled⟩ := (mapM_eq_ok hnodes).2 node hnode
  obtain ⟨patterns, hpatterns, hassembled⟩ := bind_eq_ok.1 hassembled
  obtain ⟨branches, hbranches, hassembled⟩ := bind_eq_ok.1 hassembled
  obtain ⟨condition, hcondition, hassembled⟩ := bind_eq_ok.1 hassembled
  obtain rfl := Except.ok.inj hassembled
  rcases List.mem_append.1 hmatcher with hmatcher | hmatcher
  · rcases List.mem_append.1 hmatcher with hmatcher | hmatcher
    · exact exists_build_of_buildAll hpatterns hmatcher
    · rw [branchMatchers] at hbranches
      split at hbranches
      · exact exists_build_of_buildAll hbranches hmatcher
      · obtain rfl := Except.ok.inj hbranches
        exact absurd hmatcher List.not_mem_nil
  · obtain rfl := Option.mem_toList.1 hmatcher
    rw [conditionMatcher] at hcondition
    split at hcondition
    · split at hcondition
      · obtain ⟨other, hother, hcondition⟩ := bind_eq_ok.1 hcondition
        obtain rfl := Option.some.inj (Except.ok.inj hcondition)
        exact ⟨_, mapError_eq_ok.1 hother⟩
      · simp at hcondition
    · simp at hcondition

end Plan

/-- The matchers of a validator: that of its document, and those that its plan uses. -/
def Validator.matchers (validator : Validator) : List Matcher :=
  validator.matcher :: validator.plan.matchers

namespace Fragment

/-- The classes attached to a schema, and after them the classes of the given options. -/
def listedClasses (f : Fragment) (options : Option Options) : List Class :=
  (f.options?.getD {}).classes ++ (options.getD {}).classes

/-- The last class of a name in the settings of a schema is the first one that was listed. -/
lemma last?_classes_settings (f : Fragment) (options : Option Options) (name : String) :
    Class.last? name (f.settings options).classes = Class.first? name (f.listedClasses options) := by
  rw [settings, Options.merged, Class.last?_of_nodup (Options.nodup_classes_overlay _ _),
    Options.find?_classes_overlay]
  rfl

lemma registry_of_mem_matchers {f : Fragment} {options : Option Options} {validator : Validator}
    (h : Validator.compile f options = .ok validator) {matcher : Matcher}
    (hmatcher : matcher ∈ validator.matchers) : matcher.registry = f.registry options := by
  obtain ⟨extensions, -, hmain, hplan⟩ := compiled_parts h
  rcases List.mem_cons.1 hmatcher with rfl | hmatcher
  · rw [hmain]
    rfl
  · obtain ⟨document, hbuild⟩ := Plan.exists_build_of_mem_matchers hplan hmatcher
    obtain ⟨rfl, -⟩ := Matcher.build_ok hbuild
    rfl

/-- **Precedence of classes.**  In the registry of a schema, a name stands for the first class of that
name among the attached and the given ones, in this order, or else for a built-in class, or else for
the first one that a node of the schema carries.  That is the registry of the list read backwards; it
is the registry of the list itself just if under every name the same class is listed first and last.
All matchers of a validator use this registry. -/
theorem class_precedence (f : Fragment) (options : Option Options) :
    (∀ name, (f.registry options).get? name = (Class.first? name (f.listedClasses options)).or
        ((Class.builtins.lookup name).or (f.carriedClass? name)))
      ∧ f.registry options = Registry.build { classes := (f.listedClasses options).reverse } f
      ∧ (f.registry options = Registry.build { classes := f.listedClasses options } f
        ↔ ∀ name, Class.first? name (f.listedClasses options)
          = Class.last? name (f.listedClasses options))
      ∧ ∀ validator, Validator.compile f options = .ok validator →
        ∀ matcher ∈ validator.matchers, matcher.registry = f.registry options := by
  have hget : ∀ name, (f.registry options).get? name
      = (Class.first? name (f.listedClasses options)).or
        ((Class.builtins.lookup name).or (f.carriedClass? name)) := fun name => by
    rw [registry, Registry.get?_build, last?_classes_settings]
  refine ⟨hget, Registry.ext_get? fun name => ?_, ?_, fun validator h matcher hmatcher =>
    registry_of_mem_matchers h hmatcher⟩
  · rw [hget, Registry.get?_build, Class.last?, List.reverse_reverse]
  · rw [registry, Registry.build_eq_build_iff fun name => by
      rw [last?_classes_settings, Class.isSome_last?]]
    exact forall_congr' fun name => by rw [last?_classes_settings]

/-- A class called `X` without instances. -/
def classOfNone : Class :=
  ⟨"X", fun _ => false, .ok⟩

/-- A class called `X` of which every value is an instance. -/
def classOfAll : Class :=
  ⟨"X", fun _ => true, .ok⟩

/-- A schema of the instances of `X`, to which a class of that name without instances is attached. -/
def instancesOfX : Fragment :=
  { keywords := [("instanceOf", .string "X")]
    records := .ofPairs [("", { validatorOptions := some { classes := [classOfNone] } })] }

/-- Given another class called `X`, all matchers still use the attached one. -/
theorem class_precedence_instancesOfX :
    ∃ validator, Validator.compile instancesOfX (some { classes := [classOfAll] }) = .ok validator
      ∧ ∀ matcher ∈ validator.matchers, matcher.registry.get? "X" = some classOfNone := by
  obtain ⟨validator, hvalidator⟩ : ∃ validator,
      Validator.compile instancesOfX (some { classes := [classOfAll] }) = .ok validator :=
    exists_of_isOk (by decide +kernel)
  obtain ⟨hget, -, -, hregistry⟩ :=
    class_precedence instancesOfX (some { classes := [classOfAll] })
  refine ⟨validator, hvalidator, fun matcher hmatcher => ?_⟩
  rw [hregistry validator hvalidator matcher hmatcher, hget]
  rfl

/-- The last class of a name does not win: a value is refused as no instance of `X`, though it is an
instance of the last class called so. -/
theorem not_last_class_wins :
    ∃ validator, Validator.compile instancesOfX (some { classes := [classOfAll] }) = .ok validator
      ∧ validator.matcher.accepts .null = false
      ∧ ∃ last, Class.last? "X" (instancesOfX.listedClasses (some { classes := [classOfAll] }))
          = some last ∧ last.isInstance .null = true
        ∧ validator.matcher.registry.get? "X" ≠ some last := by
  obtain ⟨validator, hvalidator⟩ : ∃ validator,
      Validator.compile instancesOfX (some { classes := [classOfAll] }) = .ok validator :=
    exists_of_isOk (by decide +kernel)
  obtain ⟨extensions, hcompiles, hmatcher, -⟩ := compiled_parts hvalidator
  have hextensions : extensions = [.typeOf] := (Except.ok.inj hcompiles.resolve).symm
  have hget : validator.matcher.registry.get? "X" = some classOfNone := by
    rw [hmatcher]
    rfl
  refine ⟨validator, hvalidator, ?_, classOfAll, rfl, rfl, fun hlast => ?_⟩
  · rw [hmatcher, hextensions]
    decide +kernel
  · have hsame : classOfNone.isInstance .null = classOfAll.isInstance .null := by
      rw [Option.some.inj (hget.symm.trans hlast)]
    exact absurd hsame (by decide)

end Fragment

end SchemaAlgebra
