import SchemaAlgebra.Proofs.Composition

/-!
# What structural keywords demand

For each keyword by which combinators compose schemas, when it finds nothing wrong with a value in the
dialect that they write: `type`, `anyOf`, `items`, `additionalItems`, `minItems`, `maxItems`,
`properties`, `required` and `additionalProperties`.  What the schemas inside find wrong is left to a
judge.
-/

namespace SchemaAlgebra

/-- Keywords that every dialect has. -/
lemma Draft.isSome_shape? (draft : Draft) :
    ∀ keyword ∈ ["type", "anyOf", "properties", "required"], (draft.shape? keyword).isSome = true := by
  cases draft <;> decide

namespace Matcher

variable {m : Matcher} {judge : Judge} {scope : Scope} {keywords schemas members : Entries Json}
  {keyword : String} {argument value : Json} {items : List Json}

/-- A keyword finds nothing wrong with a value. -/
def Allows (m : Matcher) (judge : Judge) (scope : Scope) (keywords : Entries Json)
    (entry : String × Json) (value : Json) : Prop :=
  m.keywordViolations judge scope keywords entry.1 entry.2 value = []

lemma require_eq_nil {passes : Bool} {complaint : Complaint} :
    require passes keyword complaint value = [] ↔ passes = true := by
  cases passes <;> simp [require]

lemma applyTo_eq_nil {route : List String} {token : String} {schema : Json} :
    applyTo judge scope route token schema value = [] ↔ judge scope schema value = [] :=
  List.map_eq_nil_iff

/-- A keyword of the dialect that is neither an extension nor a reference tests the value itself, or
applies schemas to it. -/
lemma allows_iff_of_shape (hextension : isExtension keyword = false)
    (hshape : (scope.draft.shape? keyword).isSome = true) (hreference : keyword ≠ "$ref") :
    m.Allows judge scope keywords (keyword, argument) value
      ↔ assert m.enforcesFormats scope.draft keywords keyword argument value = []
        ∧ apply judge scope keywords keyword argument value = [] := by
  rw [← List.append_eq_nil_iff, Allows, keywordViolations]
  dsimp only
  rw [read?_eq_none hextension]
  dsimp only
  rw [← Option.not_isSome, hshape, Bool.not_true, if_neg Bool.false_ne_true]
  rintro reference (rfl : keyword = _) -
  exact absurd rfl hreference

lemma allows_anyOf_iff : m.Allows judge scope keywords ("anyOf", argument) value
    ↔ ∃ schema ∈ (argument.items?).getD [], judge scope schema value = [] := by
  rw [allows_iff_of_shape (by decide) (Draft.isSome_shape? _ _ (by decide)) (by decide)]
  simp [assert, apply, anyOf, require_eq_nil, satisfies]

lemma allows_anyOf (schemas : List Json) :
    m.Allows judge scope keywords ("anyOf", .array schemas) value
      ↔ ∃ schema ∈ schemas, judge scope schema value = [] :=
  allows_anyOf_iff

lemma allows_required (names : List String) :
    m.Allows judge scope keywords ("required", .array (names.map .string)) value
      ↔ ∀ members, value = .object members → ∀ name ∈ names, Entries.contains name members = true := by
  have hnames : (names.map Json.string).filterMap Json.string? = names := by
    rw [List.filterMap_map]
    exact List.filterMap_some
  rw [allows_iff_of_shape (by decide) (Draft.isSome_shape? _ _ (by decide)) (by decide)]
  cases value with
  | object members => simp [assert, apply, lacking, hnames, require_eq_nil]
  | _ => simp [assert, apply, lacking]

/-- What all keywords that are looked at allow. -/
lemma nodeViolations_eq_nil_iff : m.nodeViolations judge scope keywords value = []
    ↔ ∀ entry ∈ effectiveKeywords scope.draft keywords, m.Allows judge scope keywords entry value :=
  List.flatMap_eq_nil_iff

/-- All keywords of a schema without a reference are looked at. -/
lemma passes_iff_allows {steps : ℕ} (href : Draft.reference? keywords = none) :
    m.Passes (steps + 1) scope (.object keywords) value
      ↔ ∀ entry ∈ keywords, m.Allows (m.judge steps) (scope.enter keywords) keywords entry value := by
  have heffective : effectiveKeywords (scope.enter keywords).draft keywords = keywords := by
    rw [effectiveKeywords, href, Option.isSome_none, Bool.and_false, if_neg Bool.false_ne_true]
  change m.nodeViolations _ _ _ _ = [] ↔ _
  rw [nodeViolations_eq_nil_iff, heffective]

section

variable (hscope : scope.draft = .draft7)

include hscope

/-- A structural keyword tests the value itself, or applies schemas to it. -/
lemma allows_iff (hkeyword : keyword ∈ Fragment.structuralKeywords) :
    m.Allows judge scope keywords (keyword, argument) value
      ↔ assert m.enforcesFormats .draft7 keywords keyword argument value = []
        ∧ apply judge scope keywords keyword argument value = [] := by
  obtain ⟨hextension, hshape⟩ := Fragment.structural_heeded keyword hkeyword
  rw [allows_iff_of_shape hextension (by rw [hscope]; simpa using hshape)
    (by rintro rfl; revert hkeyword; decide), hscope]

lemma allows_iff_assert (hkeyword : keyword ∈ ["type", "minItems", "maxItems", "required"]) :
    m.Allows judge scope keywords (keyword, argument) value
      ↔ assert m.enforcesFormats .draft7 keywords keyword argument value = [] := by
  rw [allows_iff hscope (by revert keyword; decide), and_iff_left_iff_imp]
  intro _
  simp only [List.mem_cons, List.not_mem_nil, or_false] at hkeyword
  rcases hkeyword with rfl | rfl | rfl | rfl <;> simp [apply]

lemma allows_iff_apply (hkeyword : keyword ∈ ["anyOf", "items", "additionalItems", "properties",
      "additionalProperties"]) :
    m.Allows judge scope keywords (keyword, argument) value
      ↔ apply judge scope keywords keyword argument value = [] := by
  rw [allows_iff hscope (by revert keyword; decide), and_iff_right_iff_imp]
  intro _
  simp only [List.mem_cons, List.not_mem_nil, or_false] at hkeyword
  rcases hkeyword with rfl | rfl | rfl | rfl | rfl <;> simp [assert]

/-! ## Types -/

lemma allows_type (name : String) : m.Allows judge scope keywords ("type", .string name) value
    ↔ hasType .draft7 value name = true := by
  rw [allows_iff_assert hscope (by decide)]
  simp [assert, require_eq_nil, typesOf]

/-! ## Items -/

lemma allows_minItems (count : ℕ) :
    m.Allows judge scope keywords ("minItems", .number (.int count)) (.array items)
      ↔ count ≤ items.length := by
  rw [allows_iff_assert hscope (by decide)]
  simp [assert, atLeast, countOf?, extentOf?, Number.toInt?, require_eq_nil]

lemma allows_maxItems (count : ℕ) :
    m.Allows judge scope keywords ("maxItems", .number (.int count)) (.array items)
      ↔ items.length ≤ count := by
  rw [allows_iff_assert hscope (by decide)]
  simp [assert, atMost, countOf?, extentOf?, Number.toInt?, require_eq_nil]

/-- One schema is for all items, unless a list comes before. -/
lemma allows_items_each (hprefixed : Entries.lookup "prefixItems" keywords = none)
    (inner : Entries Json) :
    m.Allows judge scope keywords ("items", .object inner) (.array items)
      ↔ ∀ item ∈ items, judge scope (.object inner) item = [] := by
  rw [allows_iff_apply hscope (by decide)]
  simp only [apply, Matcher.items, itemsFrom, prefixLength, hprefixed, Option.bind_none,
    Option.getD_none, List.length_nil, List.drop_zero, List.flatMap_eq_nil_iff, applyTo_eq_nil]
  constructor
  · intro h item hitem
    obtain ⟨index, hindex⟩ := List.mem_iff_getElem?.1 hitem
    exact h (item, index) (List.mk_mem_zipIdx_iff_getElem?.2 hindex)
  · exact fun h entry hentry => h entry.1 (List.fst_mem_of_mem_zipIdx hentry)

/-- Listed schemas are for the items at their places, as far as there are any. -/
lemma allows_items_listed (schemas : List Json) :
    m.Allows judge scope keywords ("items", .array schemas) (.array items)
      ↔ ∀ (index : ℕ) (schema item : Json), schemas[index]? = some schema → items[index]? = some item →
        judge scope schema item = [] := by
  have hzip : ∀ (index : ℕ) (schema item : Json), (schemas.zip items)[index]? = some (schema, item)
      ↔ schemas[index]? = some schema ∧ items[index]? = some item := fun index schema item => by
    rw [List.getElem?_zip_eq_some]
  rw [allows_iff_apply hscope (by decide)]
  simp only [apply, Matcher.items, itemByItem, List.flatMap_eq_nil_iff, applyTo_eq_nil]
  constructor
  · intro h index schema item hschema hitem
    exact h ((schema, item), index)
      (List.mk_mem_zipIdx_iff_getElem?.2 ((hzip index schema item).2 ⟨hschema, hitem⟩))
  · rintro h ⟨⟨schema, item⟩, index⟩ hentry
    obtain ⟨hschema, hitem⟩ := (hzip index schema item).1 (List.mk_mem_zipIdx_iff_getElem?.1 hentry)
    exact h index schema item hschema hitem

/-- No items are additional without a list of schemas. -/
lemma allows_additionalItems :
    m.Allows judge scope keywords ("additionalItems", .bool false) (.array items)
      ↔ ∀ schemas, Entries.lookup "items" keywords = some (.array schemas) →
        items.length ≤ schemas.length := by
  rw [allows_iff_apply hscope (by decide)]
  simp only [apply, additionalItems]
  cases Entries.lookup "items" keywords with
  | none => simp
  | some argument => cases argument <;> simp [require_eq_nil]

/-! ## Members -/

/-- Declared members are matched against their schemas, where `properties` answers for them. -/
lemma allows_properties (hanswers : answersForMembers keywords = false) :
    m.Allows judge scope keywords ("properties", .object schemas) (.object members)
      ↔ ∀ entry ∈ schemas, ∀ member, Entries.lookup entry.1 members = some member →
        judge scope entry.2 member = [] := by
  rw [allows_iff_apply hscope (by decide)]
  simp only [apply, hanswers, Bool.false_eq_true, if_false, properties, Json.members?,
    Option.getD_some, List.flatMap_eq_nil_iff]
  refine forall_congr' fun entry => imp_congr_right fun _ => ?_
  cases Entries.lookup entry.1 members with
  | none => simp
  | some member => simp [applyTo_eq_nil]

lemma allows_properties_answered (hanswers : answersForMembers keywords = true) :
    m.Allows judge scope keywords ("properties", .object schemas) (.object members) := by
  rw [allows_iff_apply hscope (by decide)]
  simp only [apply, hanswers, if_true]

section

variable (hpatterns : Entries.lookup "patternProperties" keywords = none)
  (hproperties : Entries.lookup "properties" keywords = some (.object schemas))

include hpatterns

omit hscope in
lemma patternsFor_eq_nil (key : String) : patternsFor keywords key = [] := by
  rw [patternsFor, schemasUnder, hpatterns]
  rfl

include hproperties

omit hscope in
lemma covers_eq_contains (key : String) : covers keywords key = Entries.contains key schemas := by
  rw [covers, patternsFor_eq_nil hpatterns, schemasUnder, hproperties]
  exact Bool.or_false _

omit hscope in
lemma coveredMember_eq_nil_iff (key : String) : coveredMember judge scope keywords key value = []
    ↔ ∀ schema, Entries.lookup key schemas = some schema → judge scope schema value = [] := by
  have hschemas : schemasUnder "properties" keywords = schemas := by
    rw [schemasUnder, hproperties]
    rfl
  rw [coveredMember, patternsFor_eq_nil hpatterns, hschemas, List.flatMap_nil, List.append_nil]
  cases Entries.lookup key schemas with
  | none => simp
  | some schema => simp [applyTo_eq_nil]

/-- A closed object has declared members only, which match their schemas. -/
lemma allows_additionalProperties_false :
    m.Allows judge scope keywords ("additionalProperties", .bool false) (.object members)
      ↔ ∀ member ∈ members, Entries.contains member.1 schemas = true
        ∧ ∀ schema, Entries.lookup member.1 schemas = some schema →
          judge scope schema member.2 = [] := by
  have hcontains : Entries.contains "properties" keywords = true := by
    rw [Entries.contains_eq_isSome, hproperties]
    rfl
  rw [allows_iff_apply hscope (by decide)]
  simp only [apply, additionalProperties, hcontains, Bool.true_or, if_true,
    List.append_eq_nil_iff, List.flatMap_eq_nil_iff, coveredMember_eq_nil_iff hpatterns hproperties,
    covers_eq_contains hpatterns hproperties, require_eq_nil, List.isEmpty_iff, List.filter_eq_nil_iff,
    Entries.keys, List.forall_mem_map, Bool.not_eq_true', Bool.not_eq_false]
  exact ⟨fun h member hmember => ⟨h.2 member hmember, h.1 member hmember⟩,
    fun h => ⟨fun member hmember => (h member hmember).2, fun member hmember => (h member hmember).1⟩⟩

/-- A schema for additional members is for all of those that are not declared. -/
lemma allows_additionalProperties_schema (inner : Entries Json) :
    m.Allows judge scope keywords ("additionalProperties", .object inner) (.object members)
      ↔ ∀ member ∈ members, if Entries.contains member.1 schemas then
          ∀ schema, Entries.lookup member.1 schemas = some schema → judge scope schema member.2 = []
        else judge scope (.object inner) member.2 = [] := by
  rw [allows_iff_apply hscope (by decide)]
  simp only [apply, additionalProperties, List.flatMap_eq_nil_iff,
    covers_eq_contains hpatterns hproperties]
  refine forall_congr' fun member => imp_congr_right fun _ => ?_
  split
  · exact coveredMember_eq_nil_iff hpatterns hproperties member.1
  · exact applyTo_eq_nil

end

end

end Matcher

end SchemaAlgebra
