import Mathlib.Data.List.Basic
import SchemaAlgebra.Matcher.Evaluate
import SchemaAlgebra.Proofs.Tokens

/-!
# What a schema that finds nothing wrong has looked at

If a schema finds nothing wrong with a value, then neither do the schemas that its keywords apply to
the value, its members and its items, with one step less (`Matcher.Passes`).  A keyword is looked at
if the dialect has it and no reference makes it void (`Matcher.heeds`).

Each lemma is about one keyword that applies schemas.  The members of an object are shared among
three keywords, so these lemmas also say which of them answers for a member.
-/

namespace SchemaAlgebra

namespace Matcher

/-- Whether a keyword of a schema is looked at: the dialect has it, and no reference makes it void. -/
def heeds (draft : Draft) (keywords : Entries Json) (keyword : String) : Bool :=
  (draft.shape? keyword).isSome && !(draft.refersAlone && (Draft.reference? keywords).isSome)

/-- Whether a keyword may be one of the extensions. -/
def isExtension (keyword : String) : Bool :=
  keyword = "instanceOf" || keyword = "transform"
    || Extension.all.any fun extension => extension.name = keyword

/-- Nothing is wrong with the value, within a budget of steps. -/
def Passes (m : Matcher) (steps : ℕ) (scope : Scope) (schema value : Json) : Prop :=
  m.judge steps scope schema value = []

variable {m : Matcher} {steps : ℕ} {scope : Scope} {keywords : Entries Json} {keyword : String}
  {argument value schema : Json}

/-! ## Keywords -/

lemma mem_all (extension : Extension) : extension ∈ Extension.all := by
  cases extension with
  | typeOf => decide
  | presence rule => cases rule <;> decide

lemma read?_eq_none (h : isExtension keyword = false) :
    Assertion.read? m.registry m.extensions keywords keyword argument = none := by
  simp only [isExtension, Bool.or_eq_false_iff, decide_eq_false_iff_not, List.any_eq_false,
    decide_eq_true_eq] at h
  obtain ⟨⟨hinstance, htransform⟩, hextension⟩ := h
  simp only [Assertion.read?, hinstance, htransform, if_false, Option.map_eq_none_iff,
    List.find?_eq_none, decide_eq_true_eq]
  exact fun extension _ => hextension extension (mem_all extension)

lemma schemaRoute_of_mem_require {passes : Bool} {complaint : Complaint} {violation : Violation}
    (h : violation ∈ require passes keyword complaint value) : violation.schemaRoute = [keyword] := by
  cases passes with
  | true => simp [require] at h
  | false =>
    obtain rfl := List.mem_singleton.1 h
    rfl

lemma mem_effectiveKeywords {draft : Draft} (hheeds : heeds draft keywords keyword = true)
    (h : Entries.lookup keyword keywords = some argument) :
    (keyword, argument) ∈ effectiveKeywords draft keywords := by
  simp only [heeds, Bool.and_eq_true, Bool.not_eq_true'] at hheeds
  simp only [effectiveKeywords, hheeds.2, Bool.false_eq_true, if_false]
  exact Entries.mem_of_lookup h

lemma keywordViolations_eq_nil (h : m.Passes (steps + 1) scope (.object keywords) value)
    (hmem : (keyword, argument) ∈ effectiveKeywords (scope.enter keywords).draft keywords) :
    m.keywordViolations (m.judge steps) (scope.enter keywords) keywords keyword argument value
      = [] := by
  have hall := List.flatMap_eq_nil_iff.1 (show m.nodeViolations (m.judge steps) _ _ _ = [] from h)
  exact hall _ hmem

/-- **Keywords.**  A keyword that applies schemas finds nothing wrong. -/
lemma apply_eq_nil (h : m.Passes (steps + 1) scope (.object keywords) value)
    (hlookup : Entries.lookup keyword keywords = some argument)
    (hheeds : heeds (scope.enter keywords).draft keywords keyword = true)
    (hextension : isExtension keyword = false) (hreference : keyword ≠ "$ref") :
    apply (m.judge steps) (scope.enter keywords) keywords keyword argument value = [] := by
  have hnil := keywordViolations_eq_nil h (mem_effectiveKeywords hheeds hlookup)
  have hshape : ((scope.enter keywords).draft.shape? keyword).isNone = false := by
    simp only [heeds, Bool.and_eq_true] at hheeds
    simpa using hheeds.1
  simp only [keywordViolations, read?_eq_none hextension, hshape, Bool.false_eq_true, if_false]
    at hnil
  split at hnil
  · exact absurd rfl hreference
  · exact (List.append_eq_nil_iff.1 hnil).2

lemma passes_of_applyTo {inner : Scope} {route : List String} {token : String}
    (h : applyTo (m.judge steps) inner route token schema value = []) :
    m.Passes steps inner schema value :=
  List.map_eq_nil_iff.1 h

lemma passes_of_applyHere {inner : Scope} {route : List String}
    (h : applyHere (m.judge steps) inner route schema value = []) :
    m.Passes steps inner schema value :=
  List.map_eq_nil_iff.1 h

/-- A reference hands the value on to the schema that it names, unless that makes the same one. -/
lemma passes_of_reference (h : m.Passes (steps + 1) scope (.object keywords) value)
    {reference : String} (hlookup : Entries.lookup "$ref" keywords = some (.string reference))
    {target : Location} (htarget : m.document.resolve? (scope.enter keywords) reference = some target)
    (hother : (target.value.members?.bind Draft.reference?) ≠ some reference) :
    m.Passes steps target.scope target.value value := by
  have hmem : ("$ref", Json.string reference)
      ∈ effectiveKeywords (scope.enter keywords).draft keywords := by
    unfold effectiveKeywords
    split
    · exact List.mem_filter.2 ⟨Entries.mem_of_lookup hlookup, by simp⟩
    · exact Entries.mem_of_lookup hlookup
  have hnil := keywordViolations_eq_nil h hmem
  have hshape : ((scope.enter keywords).draft.shape? "$ref").isNone = false := by
    cases (scope.enter keywords).draft <;> rfl
  simp only [keywordViolations, read?_eq_none (show isExtension "$ref" = false by decide), hshape,
    Bool.false_eq_true, if_false, followReference, htarget, hother] at hnil
  exact passes_of_applyHere hnil

lemma passes_of_allOf (h : m.Passes (steps + 1) scope (.object keywords) value)
    (hheeds : heeds (scope.enter keywords).draft keywords "allOf" = true) {schemas : List Json}
    (hlookup : Entries.lookup "allOf" keywords = some (.array schemas)) {index : ℕ}
    (hschema : schemas[index]? = some schema) :
    m.Passes steps (scope.enter keywords) schema value := by
  have hnil := apply_eq_nil h hlookup hheeds (by decide) (by decide)
  have hall := List.flatMap_eq_nil_iff.1
    (show allOf (m.judge steps) (scope.enter keywords) schemas value = [] from hnil)
  exact passes_of_applyHere (hall (schema, index) (List.mk_mem_zipIdx_iff_getElem?.2 hschema))

/-! ## Members -/

section Members

variable {members schemas : Entries Json} {key : String}

/-- The keywords that share the members among them are looked at together. -/
lemma heeds_member {draft : Draft} (h : heeds draft keywords keyword = true) {other : String}
    (hother : other ∈ ["properties", "patternProperties", "additionalProperties"]) :
    heeds draft keywords other = true := by
  simp only [heeds, Bool.and_eq_true] at h ⊢
  refine ⟨?_, h.2⟩
  revert other
  cases draft <;> decide

/-- What has members is an object. -/
lemma exists_object_of_mem_members {entry : String × Json} (h : entry ∈ (argument.members?).getD []) :
    ∃ schemas, argument = .object schemas := by
  cases argument with
  | object schemas => exact ⟨schemas, rfl⟩
  | _ => simp [Json.members?] at h

/-- What has items is an array. -/
lemma exists_array_of_mem_items (h : schema ∈ (argument.items?).getD []) :
    ∃ schemas, argument = .array schemas := by
  cases argument with
  | array schemas => exact ⟨schemas, rfl⟩
  | _ => simp [Json.items?] at h

lemma schemasUnder_eq (h : Entries.lookup keyword keywords = some (.object schemas)) :
    schemasUnder keyword keywords = schemas := by
  simp [schemasUnder, h, Json.members?]

lemma exists_of_mem_schemasUnder {entry : String × Json} (h : entry ∈ schemasUnder keyword keywords) :
    ∃ schemas, Entries.lookup keyword keywords = some (.object schemas) ∧ entry ∈ schemas := by
  unfold schemasUnder at h
  cases hlookup : Entries.lookup keyword keywords with
  | none => simp [hlookup] at h
  | some argument =>
    cases argument with
    | object schemas => exact ⟨schemas, rfl, by simpa [hlookup, Json.members?] using h⟩
    | _ => simp [hlookup, Json.members?] at h

lemma mem_patternsFor {source : String}
    (h : Entries.lookup "patternProperties" keywords = some (.object schemas))
    (hmem : (source, schema) ∈ schemas) (hoccurs : patternOccurs source key = true) :
    (source, schema) ∈ patternsFor keywords key := by
  rw [patternsFor, schemasUnder_eq h]
  exact List.mem_filter.2 ⟨hmem, hoccurs⟩

lemma contains_of_covers (h : covers keywords key = true) :
    (Entries.contains "properties" keywords || Entries.contains "patternProperties" keywords)
      = true := by
  have hsome : ∀ keyword, schemasUnder keyword keywords ≠ [] →
      Entries.contains keyword keywords = true := by
    intro keyword hne
    obtain ⟨entry, hentry⟩ := List.exists_mem_of_ne_nil _ hne
    obtain ⟨schemas, hlookup, -⟩ := exists_of_mem_schemasUnder hentry
    rw [Entries.contains_eq_isSome, hlookup]
    rfl
  simp only [covers, Bool.or_eq_true, Bool.not_eq_true', List.isEmpty_eq_false_iff] at h ⊢
  refine h.imp (fun hcontains => hsome _ ?_) fun hpatterns => hsome _ ?_
  · rintro hnil
    simp [hnil, Entries.contains] at hcontains
  · rintro hnil
    simp [patternsFor, hnil] at hpatterns

/-- If one keyword answers for all members, it holds them to the schemas for their keys. -/
lemma coveredMember_eq_nil (h : m.Passes (steps + 1) scope (.object keywords) (.object members))
    (hheeds : heeds (scope.enter keywords).draft keywords keyword = true)
    (hanswers : answersForMembers keywords = true) (hcovers : covers keywords key = true)
    (hmember : (key, value) ∈ members) :
    coveredMember (m.judge steps) (scope.enter keywords) keywords key value = [] := by
  have hnil : ∀ argument, Entries.lookup "additionalProperties" keywords = some argument →
      additionalProperties (m.judge steps) (scope.enter keywords) keywords argument members = [] :=
    fun argument hlookup =>
      apply_eq_nil h hlookup (heeds_member hheeds (by decide)) (by decide) (by decide)
  unfold answersForMembers at hanswers
  split at hanswers
  · rename_i hlookup
    have hall := hnil _ hlookup
    simp only [additionalProperties, contains_of_covers hcovers, if_true] at hall
    exact List.flatMap_eq_nil_iff.1 (List.append_eq_nil_iff.1 hall).1 (key, value) hmember
  · rename_i hlookup
    have hall := List.flatMap_eq_nil_iff.1 (hnil _ hlookup) (key, value) hmember
    simpa only [hcovers, if_true] using hall
  · simp at hanswers

lemma passes_of_properties (h : m.Passes (steps + 1) scope (.object keywords) (.object members))
    (hheeds : heeds (scope.enter keywords).draft keywords "properties" = true)
    (hlookup : Entries.lookup "properties" keywords = some (.object schemas))
    (hschema : Entries.lookup key schemas = some schema)
    (hmember : Entries.lookup key members = some value) :
    m.Passes steps (scope.enter keywords) schema value := by
  by_cases hanswers : answersForMembers keywords = true
  · have hcovers : covers keywords key = true := by
      simp [covers, schemasUnder_eq hlookup, Entries.contains_eq_isSome, hschema]
    have hnil := coveredMember_eq_nil h hheeds hanswers hcovers (Entries.mem_of_lookup hmember)
    simp only [coveredMember, schemasUnder_eq hlookup, hschema] at hnil
    exact passes_of_applyTo (List.append_eq_nil_iff.1 hnil).1
  · have hnil := apply_eq_nil h hlookup hheeds (by decide) (by decide)
    simp only [apply, hanswers, Json.members?, Option.getD_some] at hnil
    have hall := List.flatMap_eq_nil_iff.1 hnil (key, schema) (Entries.mem_of_lookup hschema)
    simp only [hmember] at hall
    exact passes_of_applyTo hall

lemma passes_of_patternProperties
    (h : m.Passes (steps + 1) scope (.object keywords) (.object members))
    (hheeds : heeds (scope.enter keywords).draft keywords "patternProperties" = true)
    (hlookup : Entries.lookup "patternProperties" keywords = some (.object schemas))
    {source : String} (hschema : (source, schema) ∈ schemas)
    (hoccurs : patternOccurs source key = true) (hmember : (key, value) ∈ members) :
    m.Passes steps (scope.enter keywords) schema value := by
  have hpatterns := mem_patternsFor hlookup hschema hoccurs
  by_cases hanswers : answersForMembers keywords = true
  · have hcovers : covers keywords key = true := by
      simp only [covers, Bool.or_eq_true, Bool.not_eq_true', List.isEmpty_eq_false_iff]
      exact Or.inr (List.ne_nil_of_mem hpatterns)
    have hnil := coveredMember_eq_nil h hheeds hanswers hcovers hmember
    have hall := List.flatMap_eq_nil_iff.1 (List.append_eq_nil_iff.1 hnil).2
    exact passes_of_applyTo (hall (source, schema) hpatterns)
  · have hnil := apply_eq_nil h hlookup hheeds (by decide) (by decide)
    simp only [apply, hanswers, Json.members?, Option.getD_some] at hnil
    have hall := List.flatMap_eq_nil_iff.1 hnil (source, schema) hschema
    have hmembers := List.flatMap_eq_nil_iff.1 hall (key, value) hmember
    simp only [hoccurs, if_true] at hmembers
    exact passes_of_applyTo hmembers

lemma passes_of_additionalProperties
    (h : m.Passes (steps + 1) scope (.object keywords) (.object members))
    (hheeds : heeds (scope.enter keywords).draft keywords "additionalProperties" = true)
    {inner : Entries Json}
    (hlookup : Entries.lookup "additionalProperties" keywords = some (.object inner))
    (hcovers : covers keywords key = false) (hmember : (key, value) ∈ members) :
    m.Passes steps (scope.enter keywords) (.object inner) value := by
  have hnil := apply_eq_nil h hlookup hheeds (by decide) (by decide)
  have hall := List.flatMap_eq_nil_iff.1 hnil (key, value) hmember
  simp only [hcovers, Bool.false_eq_true, if_false] at hall
  exact passes_of_applyTo hall

/-- Where a closed schema finds nothing wrong, it provides for all members. -/
lemma covers_of_closed (h : m.Passes (steps + 1) scope (.object keywords) (.object members))
    (hheeds : heeds (scope.enter keywords).draft keywords "additionalProperties" = true)
    (hlookup : Entries.lookup "additionalProperties" keywords = some (.bool false))
    (hmember : (key, value) ∈ members) : covers keywords key = true := by
  have hnil := apply_eq_nil h hlookup hheeds (by decide) (by decide)
  simp only [apply, additionalProperties] at hnil
  split at hnil
  · have hempty : ((Entries.keys members).filter fun key => !covers keywords key).isEmpty := by
      by_contra hne
      simp [require, hne] at hnil
    have hkey := List.filter_eq_nil_iff.1 (List.isEmpty_iff.1 hempty) key
      (List.mem_map_of_mem hmember)
    simpa using hkey
  · split at hnil
    · exact absurd hmember List.not_mem_nil
    · simp at hnil

end Members

/-! ## Items -/

section Items

variable {items schemas : List Json} {index : ℕ}

lemma passes_of_itemByItem {inner : Scope}
    (h : itemByItem (m.judge steps) inner keyword schemas items = [])
    (hschema : schemas[index]? = some schema) (hitem : items[index]? = some value) :
    m.Passes steps inner schema value := by
  have hzip : (schemas.zip items)[index]? = some (schema, value) :=
    List.getElem?_zip_eq_some.2 ⟨hschema, hitem⟩
  exact passes_of_applyTo (List.flatMap_eq_nil_iff.1 h ((schema, value), index)
    (List.mk_mem_zipIdx_iff_getElem?.2 hzip))

lemma passes_of_itemsFrom {inner : Scope} {first : ℕ}
    (h : itemsFrom (m.judge steps) inner keyword first schema items = [])
    (hfirst : first ≤ index) (hitem : items[index]? = some value) :
    m.Passes steps inner schema value := by
  have hdrop : (value, index) ∈ items.zipIdx.drop first := by
    refine List.mem_of_getElem? (i := index - first) ?_
    rw [List.getElem?_drop, Nat.add_sub_cancel' hfirst, List.getElem?_zipIdx, hitem]
    simp
  exact passes_of_applyTo (List.flatMap_eq_nil_iff.1 h (value, index) hdrop)

lemma passes_of_prefixItems (h : m.Passes (steps + 1) scope (.object keywords) (.array items))
    (hheeds : heeds (scope.enter keywords).draft keywords "prefixItems" = true)
    (hlookup : Entries.lookup "prefixItems" keywords = some (.array schemas))
    (hschema : schemas[index]? = some schema) (hitem : items[index]? = some value) :
    m.Passes steps (scope.enter keywords) schema value :=
  passes_of_itemByItem (apply_eq_nil h hlookup hheeds (by decide) (by decide)) hschema hitem

lemma passes_of_listedItems (h : m.Passes (steps + 1) scope (.object keywords) (.array items))
    (hheeds : heeds (scope.enter keywords).draft keywords "items" = true)
    (hlookup : Entries.lookup "items" keywords = some (.array schemas))
    (hschema : schemas[index]? = some schema) (hitem : items[index]? = some value) :
    m.Passes steps (scope.enter keywords) schema value :=
  passes_of_itemByItem (apply_eq_nil h hlookup hheeds (by decide) (by decide)) hschema hitem

lemma passes_of_items (h : m.Passes (steps + 1) scope (.object keywords) (.array items))
    (hheeds : heeds (scope.enter keywords).draft keywords "items" = true) {inner : Entries Json}
    (hlookup : Entries.lookup "items" keywords = some (.object inner))
    (hindex : prefixLength keywords ≤ index) (hitem : items[index]? = some value) :
    m.Passes steps (scope.enter keywords) (.object inner) value :=
  passes_of_itemsFrom (apply_eq_nil h hlookup hheeds (by decide) (by decide)) hindex hitem

lemma passes_of_additionalItems (h : m.Passes (steps + 1) scope (.object keywords) (.array items))
    (hheeds : heeds (scope.enter keywords).draft keywords "additionalItems" = true)
    {inner : Entries Json}
    (hlookup : Entries.lookup "additionalItems" keywords = some (.object inner))
    (hlist : Entries.lookup "items" keywords = some (.array schemas))
    (hindex : schemas.length ≤ index) (hitem : items[index]? = some value) :
    m.Passes steps (scope.enter keywords) (.object inner) value := by
  have hnil := apply_eq_nil h hlookup hheeds (by decide) (by decide)
  simp only [apply, additionalItems, hlist] at hnil
  exact passes_of_itemsFrom hnil hindex hitem

end Items

end Matcher

end SchemaAlgebra
