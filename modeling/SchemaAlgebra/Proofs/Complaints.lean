import SchemaAlgebra.Proofs.Overreach
import SchemaAlgebra.Proofs.Questions

/-!
# What schemas complain of

A violation is reported with a route to a keyword, through schemas and references.  It is one of a closed
schema, if the route ends at an `additionalProperties` that is `false` (`Document.OfClosed`).

Where schemas stand beneath keywords by which pruning goes on only (`Json.OnlyPruned`), a schema complains
of four things: something that is no matter of closing, a member that it does not provide for, and what
the schemas complain of that it asks about the value and its parts, or that its reference names.

* `Document.OfClosed.of_inside`, `Document.OfClosed.of_reference` — what is passed on is of a closed schema
  if it was where it comes from.
* `Matcher.Entrusts` — the schemas that are asked, and about what; pruning goes there too.
* **`Matcher.complains_of_mem_nodeViolations`** — there is nothing else to complain of.
-/

namespace SchemaAlgebra

/-! ## Routes -/

namespace Json

variable {keywords : Entries Json} {entry : List String × Json}

/-- The keywords beneath which schemas stand. -/
def applicators : List String :=
  mapKeywords ++ listKeywords ++ singleKeywords

lemma exists_keyword_of_mem_inside (h : entry ∈ inside keywords) :
    ∃ keyword ∈ applicators, ∃ rest, entry.1 = keyword :: rest := by
  obtain ⟨tokens, value⟩ := entry
  rcases mem_inside h with ⟨keyword, hkeyword, _, _, -, -, rfl⟩ | ⟨keyword, hkeyword, _, _, -, -, rfl⟩
    | ⟨keyword, hkeyword, _, -, -, rfl⟩
  · exact ⟨keyword, List.mem_append_left _ (List.mem_append_left _ hkeyword), _, rfl⟩
  · exact ⟨keyword, List.mem_append_left _ (List.mem_append_right _ hkeyword), _, rfl⟩
  · exact ⟨keyword, List.mem_append_right _ hkeyword, _, rfl⟩

end Json

/-- The schema at a location is closed. -/
def Location.IsClosed (location : Location) : Prop :=
  ∃ keywords, location.value = .object keywords
    ∧ Entries.lookup "additionalProperties" keywords = some (.bool false)

namespace Document

/-- A route of a violation leads from a schema to another: to one inside it, as the tokens say, or to
what its reference names. -/
inductive Routes (document : Document) : Location → List String → Location → Prop
  | here {location} : Routes document location [] location
  | inside {location keywords way schema route target} : location.value = .object keywords →
      (way, schema) ∈ Json.inside keywords →
      Routes document ⟨location.inner, location.path ++ way, schema⟩ route target →
      Routes document location (way ++ route) target
  | reference {location keywords reference next route target} : location.value = .object keywords →
      Draft.reference? keywords = some reference →
      document.resolve? location.inner reference = some next → Routes document next route target →
      Routes document location ("$ref" :: route) target

/-- A violation found at a location is one of a closed schema: it is reported at the
`additionalProperties` of one. -/
def OfClosed (document : Document) (location : Location) (violation : Violation) : Prop :=
  ∃ route target, document.Routes location route target ∧ target.IsClosed
    ∧ violation.schemaRoute = route ++ ["additionalProperties"]

variable {document : Document} {location target : Location} {keywords : Entries Json}
  {way route tokens : List String} {schema : Json} {violation : Violation}

namespace OfClosed

lemma ne_nil (h : document.OfClosed location violation) : violation.schemaRoute ≠ [] := by
  obtain ⟨route, _, -, -, hroute⟩ := h
  simp [hroute]

/-- What is reported at a keyword of the schema itself is reported at its closing. -/
lemma of_keyword (h : document.OfClosed location violation) {keyword : String}
    (hkeyword : violation.schemaRoute = [keyword]) :
    keyword = "additionalProperties" ∧ location.IsClosed := by
  obtain ⟨route, target, hroutes, hclosed, hroute⟩ := h
  obtain rfl : route = [] := by
    rw [hkeyword] at hroute
    have hlength := congrArg List.length hroute
    simpa using hlength
  rw [hkeyword] at hroute
  refine ⟨List.singleton_inj.1 hroute, ?_⟩
  generalize hnil : ([] : List String) = route at hroutes
  cases hroutes with
  | here => exact hclosed
  | inside _ hinside =>
    obtain ⟨_, -, _, hway⟩ := Json.exists_keyword_of_mem_inside hinside
    simp_all
  | reference => simp at hnil

/-- What a schema inside another complains of is of a closed schema if it is so as seen from outside. -/
lemma of_inside (hwf : (Json.object keywords).WellFormed) (hkeywords : location.value = .object keywords)
    (hinside : (way, schema) ∈ Json.inside keywords)
    (h : document.OfClosed location (violation.under way tokens)) :
    document.OfClosed ⟨location.inner, location.path ++ way, schema⟩ violation := by
  obtain ⟨route, target, hroutes, hclosed, hroute⟩ := h
  have hroute : way ++ violation.schemaRoute = route ++ ["additionalProperties"] := hroute
  obtain ⟨keyword, hkeyword, rest, hway⟩ := Json.exists_keyword_of_mem_inside hinside
  obtain rfl : way = keyword :: rest := hway
  cases hroutes with
  | here =>
    -- a schema cannot stand where the closing does
    obtain ⟨others, hothers, hlookup⟩ := hclosed
    obtain rfl : keywords = others := Json.object.inj (hkeywords.symm.trans hothers)
    obtain ⟨hkeyword, hnil⟩ := List.cons.inj hroute
    obtain rfl : rest = [] := (List.append_eq_nil_iff.1 hnil).1
    subst hkeyword
    rcases Json.mem_inside hinside with ⟨_, -, _, _, -, -, h⟩ | ⟨_, -, _, _, -, -, h⟩
      | ⟨_, -, inner, hinner, -, h⟩
    · simp at h
    · simp at h
    · rw [← List.singleton_inj.1 h, hlookup] at hinner
      simp at hinner
  | @inside _ others way' schema' route _ hothers hinside' hroutes =>
    obtain rfl : keywords = others := Json.object.inj (hkeywords.symm.trans hothers)
    obtain rfl : way' = keyword :: rest := by
      have hprefix : way' <+: keyword :: rest ++ violation.schemaRoute := by
        rw [hroute, List.append_assoc]
        exact List.prefix_append _ _
      exact Json.eq_of_mem_inside hinside' hinside hprefix (List.prefix_append _ _)
    obtain rfl : schema = schema' := by
      have hwalk := Json.walk?_of_mem_inside hwf hinside
      rw [Json.walk?_of_mem_inside hwf hinside'] at hwalk
      exact (Option.some.inj hwalk).symm
    rw [List.append_assoc, List.append_cancel_left_eq] at hroute
    exact ⟨route, target, hroutes, hclosed, hroute⟩
  | reference =>
    have hne : "$ref" ∉ Json.applicators := by decide
    exact absurd ((List.cons.inj hroute).1 ▸ hkeyword) hne

/-- The same of what a reference names. -/
lemma of_reference {reference : String} (hkeywords : location.value = .object keywords)
    (hreference : Draft.reference? keywords = some reference)
    (hresolve : document.resolve? location.inner reference = some target)
    (h : document.OfClosed location (violation.under ["$ref"] tokens)) :
    document.OfClosed target violation := by
  obtain ⟨route, closed, hroutes, hclosed, hroute⟩ := h
  have hroute : "$ref" :: violation.schemaRoute = route ++ ["additionalProperties"] := hroute
  cases hroutes with
  | here => simp at hroute
  | @inside _ others way schema route _ hothers hinside hroutes =>
    obtain ⟨keyword, hkeyword, rest, hway⟩ := Json.exists_keyword_of_mem_inside hinside
    obtain rfl : way = keyword :: rest := hway
    have hne : "$ref" ∉ Json.applicators := by decide
    exact absurd ((List.cons.inj hroute).1.symm ▸ hkeyword) hne
  | @reference _ others other next route _ hothers hother hnext hroutes =>
    obtain rfl : keywords = others := Json.object.inj (hkeywords.symm.trans hothers)
    obtain rfl : reference = other := Option.some.inj (hreference.symm.trans hother)
    obtain rfl : target = next := Option.some.inj (hresolve.symm.trans hnext)
    exact ⟨route, closed, hroutes, hclosed, (List.cons.inj hroute).2⟩

end OfClosed

end Document

/-! ## What keywords complain of -/

namespace Json

/-- The keywords by which pruning goes on. -/
def prunedBy : List String :=
  ["properties", "patternProperties", "additionalProperties", "items", "additionalItems", "allOf"]

/-- Schemas stand beneath keywords by which pruning goes on only, or among definitions. -/
def OnlyPruned (keywords : Entries Json) : Prop :=
  ∀ keyword ∈ applicators, keyword ∉ "definitions" :: "$defs" :: prunedBy →
    Entries.lookup keyword keywords = none

instance (keywords : Entries Json) : Decidable (OnlyPruned keywords) :=
  inferInstanceAs (Decidable (∀ keyword ∈ applicators, _ → _))

lemma OnlyPruned.isListed_prefixItems {keywords : Entries Json} (h : OnlyPruned keywords) :
    Outline.isListed keywords "prefixItems" = false := by
  rw [Outline.isListed, h "prefixItems" (by decide) (by decide)]
  rfl

end Json

/-- A violation is reported at a keyword of the schema itself, and not at its closing. -/
def Violation.IsAside (violation : Violation) : Prop :=
  ∃ keyword, violation.schemaRoute = [keyword] ∧ keyword ≠ "additionalProperties"

namespace Matcher

/-- The schema that a way leads to is asked about a part of a value, and its complaints are passed on.
Pruning goes there too, unless the schema is `true` or `false`. -/
inductive Entrusts (draft : Draft) (keywords : Entries Json) (value : Json) :
    List String → Json → Json → Prop
  | part {way schema part} : (way, schema) ∈ applied draft keywords →
      Json.Governs keywords way value part → Entrusts draft keywords value way schema part
  | conjunct {schemas index schema} : Entries.lookup "allOf" keywords = some (.array schemas) →
      schemas[index]? = some schema →
      (["allOf", Pointer.indexToken index], schema) ∈ applied draft keywords →
      Entrusts draft keywords value ["allOf", Pointer.indexToken index] schema value
  | flag {keyword schema part} : keyword ≠ "additionalProperties" → schema.isObject = false →
      Entrusts draft keywords value [keyword] schema part

/-- What a schema complains of. -/
inductive Complains (m : Matcher) (judge : Judge) (scope : Scope) (keywords : Entries Json)
    (value : Json) : Violation → Prop
  /-- Something that is no matter of closing, at a keyword. -/
  | own {violation} : violation.IsAside → Complains m judge scope keywords value violation
  /-- A member that it does not provide for, being closed. -/
  | closing {violation members member} : value = .object members →
      Entries.lookup "additionalProperties" keywords = some (.bool false) → member ∈ members →
      covers keywords member.1 = false → Complains m judge scope keywords value violation
  /-- What a schema complains of that it entrusts with a part of the value. -/
  | passed {violation way schema part tokens} : Entrusts scope.draft keywords value way schema part →
      violation ∈ judge scope schema part →
      Complains m judge scope keywords value (violation.under way tokens)
  /-- What the schema complains of that its reference names. -/
  | referred {violation reference target} : Draft.reference? keywords = some reference →
      m.document.resolve? scope reference = some target →
      violation ∈ judge target.scope target.value value →
      Complains m judge scope keywords value (violation.under ["$ref"] [])

variable {m : Matcher} {judge : Judge} {scope : Scope} {draft : Draft} {keywords members : Entries Json}
  {keyword key : String} {argument value schema : Json} {items schemas : List Json}
  {violation : Violation}

/-! ### Assertions -/

lemma isAside_of_mem_require {passes : Bool} {complaint : Complaint}
    (hkeyword : keyword ≠ "additionalProperties")
    (h : violation ∈ require passes keyword complaint value) : violation.IsAside :=
  ⟨keyword, schemaRoute_of_mem_require h, hkeyword⟩

lemma isAside_of_mem_atLeast {extent : Extent} (hkeyword : keyword ≠ "additionalProperties")
    (h : violation ∈ atLeast extent keyword argument value) : violation.IsAside := by
  unfold atLeast at h
  split at h
  · exact isAside_of_mem_require hkeyword h
  · exact absurd h List.not_mem_nil

lemma isAside_of_mem_atMost {extent : Extent} (hkeyword : keyword ≠ "additionalProperties")
    (h : violation ∈ atMost extent keyword argument value) : violation.IsAside := by
  unfold atMost at h
  split at h
  · exact isAside_of_mem_require hkeyword h
  · exact absurd h List.not_mem_nil

lemma isAside_of_mem_lacking (hkeyword : keyword ≠ "additionalProperties")
    (h : violation ∈ lacking keyword argument value) : violation.IsAside := by
  unfold lacking at h
  split at h
  · obtain ⟨_, -, h⟩ := List.mem_flatMap.1 h
    exact isAside_of_mem_require hkeyword h
  · exact absurd h List.not_mem_nil

/-- Keywords that test the value itself complain of no closing. -/
lemma isAside_of_mem_assert {enforcesFormats : Bool}
    (h : violation ∈ assert enforcesFormats draft keywords keyword argument value) :
    violation.IsAside := by
  have hlimit : ∀ {exclusive : Bool} {switch limit : String}, switch ≠ "additionalProperties" →
      limit ≠ "additionalProperties" →
      (if exclusive then switch else limit) ≠ "additionalProperties" := by
    intro exclusive switch limit hswitch hlimit
    split <;> assumption
  unfold assert at h
  split at h
  -- limits, which a switch beside them may make exclusive
  case h_4 | h_5 => exact isAside_of_mem_require (hlimit (by decide) (by decide)) h
  -- limits on how much a value holds
  case h_9 | h_11 | h_13 => exact isAside_of_mem_atLeast (by decide) h
  case h_10 | h_12 | h_14 => exact isAside_of_mem_atMost (by decide) h
  -- tests of values of one kind only
  case h_8 | h_15 | h_16 | h_17 =>
    split at h
    · exact isAside_of_mem_require (by decide) h
    · exact absurd h List.not_mem_nil
  -- names that have to be there
  case h_18 => exact isAside_of_mem_lacking (by decide) h
  case h_19 =>
    split at h
    · obtain ⟨_, -, h⟩ := List.mem_flatMap.1 h
      dsimp only at h
      split at h
      · exact isAside_of_mem_lacking (by decide) h
      · exact absurd h List.not_mem_nil
    · exact absurd h List.not_mem_nil
  case h_20 => exact absurd h List.not_mem_nil
  all_goals exact isAside_of_mem_require (by decide) h

/-! ### Members -/

lemma complains_of_mem_applyTo {route : List String} {token : String} {part : Json}
    (h : violation ∈ applyTo judge scope route token schema part)
    (hentrusts : Entrusts scope.draft keywords value route schema part) :
    m.Complains judge scope keywords value violation := by
  obtain ⟨inner, hinner, rfl⟩ := List.mem_map.1 h
  exact .passed hentrusts hinner

lemma complains_of_mem_property (hheeds : heeds scope.draft keywords keyword = true)
    {schemas : Entries Json} (hlookup : Entries.lookup "properties" keywords = some (.object schemas))
    (hschema : (key, schema) ∈ schemas) (hmember : (key, value) ∈ members)
    (h : violation ∈ applyTo judge scope ["properties", key] key schema value) :
    m.Complains judge scope keywords (.object members) violation :=
  complains_of_mem_applyTo h (.part
    (mem_applied_of_map (by simp) hlookup hschema (heeds_member hheeds (by decide)))
    (.property hlookup hschema hmember))

lemma complains_of_mem_pattern (hheeds : heeds scope.draft keywords keyword = true)
    {schemas : Entries Json} {source : String}
    (hlookup : Entries.lookup "patternProperties" keywords = some (.object schemas))
    (hschema : (source, schema) ∈ schemas) (hoccurs : patternOccurs source key = true)
    (hmember : (key, value) ∈ members)
    (h : violation ∈ applyTo judge scope ["patternProperties", source] key schema value) :
    m.Complains judge scope keywords (.object members) violation :=
  complains_of_mem_applyTo h (.part
    (mem_applied_of_map (by simp) hlookup hschema (heeds_member hheeds (by decide)))
    (.pattern hlookup hschema hoccurs hmember))

lemma complains_of_mem_properties (hheeds : heeds scope.draft keywords "properties" = true)
    (hlookup : Entries.lookup "properties" keywords = some argument)
    (h : violation ∈ properties judge scope ((argument.members?).getD []) members) :
    m.Complains judge scope keywords (.object members) violation := by
  obtain ⟨⟨name, schema⟩, hmem, hviolation⟩ := List.mem_flatMap.1 h
  dsimp only at hviolation
  split at hviolation
  · rename_i value hvalue
    obtain ⟨schemas, rfl⟩ := exists_object_of_mem_members hmem
    exact complains_of_mem_property hheeds hlookup hmem (Entries.mem_of_lookup hvalue) hviolation
  · exact absurd hviolation List.not_mem_nil

lemma complains_of_mem_patternProperties
    (hheeds : heeds scope.draft keywords "patternProperties" = true)
    (hlookup : Entries.lookup "patternProperties" keywords = some argument)
    (h : violation ∈ patternProperties judge scope ((argument.members?).getD []) members) :
    m.Complains judge scope keywords (.object members) violation := by
  obtain ⟨⟨source, schema⟩, hmem, hviolations⟩ := List.mem_flatMap.1 h
  obtain ⟨⟨key, value⟩, hmember, hviolation⟩ := List.mem_flatMap.1 hviolations
  dsimp only at hviolation
  split at hviolation
  · rename_i hoccurs
    obtain ⟨schemas, rfl⟩ := exists_object_of_mem_members hmem
    exact complains_of_mem_pattern hheeds hlookup hmem hoccurs hmember hviolation
  · exact absurd hviolation List.not_mem_nil

lemma complains_of_mem_coveredMember (hheeds : heeds scope.draft keywords keyword = true)
    (hmember : (key, value) ∈ members)
    (h : violation ∈ coveredMember judge scope keywords key value) :
    m.Complains judge scope keywords (.object members) violation := by
  rcases List.mem_append.1 h with h | h
  · split at h
    · rename_i schema hlookup
      obtain ⟨schemas, hschemas, hmem⟩ := exists_of_mem_schemasUnder (Entries.mem_of_lookup hlookup)
      exact complains_of_mem_property hheeds hschemas hmem hmember h
    · exact absurd h List.not_mem_nil
  · obtain ⟨⟨source, schema⟩, hpattern, h⟩ := List.mem_flatMap.1 h
    obtain ⟨hentry, hoccurs⟩ := List.mem_filter.1 hpattern
    obtain ⟨schemas, hschemas, hmem⟩ := exists_of_mem_schemasUnder hentry
    exact complains_of_mem_pattern hheeds hschemas hmem hoccurs hmember h

lemma complains_of_mem_additionalProperties
    (hheeds : heeds scope.draft keywords "additionalProperties" = true)
    (hlookup : Entries.lookup "additionalProperties" keywords = some argument)
    (h : violation ∈ additionalProperties judge scope keywords argument members) :
    m.Complains judge scope keywords (.object members) violation := by
  unfold additionalProperties at h
  split at h
  · split at h
    · rcases List.mem_append.1 h with h | h
      · obtain ⟨⟨key, value⟩, hmember, h⟩ := List.mem_flatMap.1 h
        exact complains_of_mem_coveredMember hheeds hmember h
      · have hne : ((Entries.keys members).filter fun key => !covers keywords key) ≠ [] := by
          intro hnil
          simp [hnil, require] at h
        obtain ⟨key, hkey⟩ := List.exists_mem_of_ne_nil _ hne
        obtain ⟨hkey, huncovered⟩ := List.mem_filter.1 hkey
        obtain ⟨member, hmember, rfl⟩ := List.mem_map.1 hkey
        exact .closing rfl hlookup hmember (by simpa using huncovered)
    · rename_i hnone
      split at h
      · exact absurd h List.not_mem_nil
      · refine .closing rfl hlookup List.mem_cons_self (Bool.eq_false_iff.2 fun hcovers => ?_)
        exact hnone (contains_of_covers hcovers)
  · obtain ⟨⟨key, value⟩, hmember, h⟩ := List.mem_flatMap.1 h
    dsimp only at h
    split at h
    · exact complains_of_mem_coveredMember hheeds hmember h
    · rename_i huncovered
      exact complains_of_mem_applyTo h (.part (mem_applied_of_single hlookup hheeds (by simp))
        (.additional hlookup (by simpa using huncovered) hmember))
  · exact absurd h List.not_mem_nil

/-! ### Items -/

lemma exists_of_mem_itemByItem {route : String}
    (h : violation ∈ itemByItem judge scope route schemas items) : ∃ index schema item,
      schemas[index]? = some schema ∧ items[index]? = some item
        ∧ violation ∈ applyTo judge scope [route, Pointer.indexToken index] (Pointer.indexToken index)
          schema item := by
  obtain ⟨⟨⟨schema, item⟩, index⟩, hmem, h⟩ := List.mem_flatMap.1 h
  obtain ⟨hschema, hitem⟩ := List.getElem?_zip_eq_some.1 (List.mk_mem_zipIdx_iff_getElem?.1 hmem)
  exact ⟨index, schema, item, hschema, hitem, h⟩

lemma exists_of_mem_itemsFrom {route : String} {first : ℕ}
    (h : violation ∈ itemsFrom judge scope route first schema items) : ∃ index item,
      first ≤ index ∧ items[index]? = some item
        ∧ violation ∈ applyTo judge scope [route] (Pointer.indexToken index) schema item := by
  obtain ⟨⟨item, index⟩, hmem, h⟩ := List.mem_flatMap.1 h
  obtain ⟨place, hplace⟩ := List.mem_iff_getElem?.1 hmem
  rw [List.getElem?_drop, List.getElem?_zipIdx] at hplace
  obtain ⟨found, hfound, heq⟩ := Option.map_eq_some_iff.1 hplace
  obtain ⟨rfl, rfl⟩ := Prod.mk.inj heq
  exact ⟨_, _, by omega, by simpa using hfound, h⟩

/-- A schema that pruning does not go to, as it is no object, may be one for items all the same. -/
lemma complains_of_mem_itemsFrom {first : ℕ} (hkeyword : keyword ≠ "additionalProperties")
    (hgoverns : ∀ inner index item, schema = .object inner → first ≤ index → items[index]? = some item →
      Entrusts scope.draft keywords (.array items) [keyword] schema item)
    (h : violation ∈ itemsFrom judge scope keyword first schema items) :
    m.Complains judge scope keywords (.array items) violation := by
  obtain ⟨index, item, hindex, hitem, h⟩ := exists_of_mem_itemsFrom h
  cases schema with
  | object inner => exact complains_of_mem_applyTo h (hgoverns inner index item rfl hindex hitem)
  | _ => exact complains_of_mem_applyTo h (.flag hkeyword rfl)

lemma complains_of_mem_items (honly : Json.OnlyPruned keywords)
    (hheeds : heeds scope.draft keywords "items" = true)
    (hlookup : Entries.lookup "items" keywords = some argument)
    (h : violation ∈ Matcher.items judge scope keywords argument items) :
    m.Complains judge scope keywords (.array items) violation := by
  unfold Matcher.items at h
  split at h
  · obtain ⟨index, schema, item, hschema, hitem, h⟩ := exists_of_mem_itemByItem h
    obtain ⟨hindex, -⟩ := List.getElem?_eq_some_iff.1 hschema
    exact complains_of_mem_applyTo h (.part (mem_applied_of_list (by simp) hlookup hschema hheeds)
      (.listedItem honly.isListed_prefixItems hlookup hindex hitem))
  · refine complains_of_mem_itemsFrom (by decide) (fun inner index item hinner hindex hitem => ?_) h
    subst hinner
    exact .part (mem_applied_of_single hlookup hheeds (by simp)) (.item hlookup hindex hitem)

lemma complains_of_mem_additionalItems (honly : Json.OnlyPruned keywords)
    (hheeds : heeds scope.draft keywords "additionalItems" = true)
    (hlookup : Entries.lookup "additionalItems" keywords = some argument)
    (h : violation ∈ additionalItems judge scope keywords argument items) :
    m.Complains judge scope keywords (.array items) violation := by
  unfold additionalItems at h
  split at h
  · exact .own (isAside_of_mem_require (by decide) h)
  · rename_i schemas inner hlist
    refine complains_of_mem_itemsFrom (by decide) (fun _ index item _ hindex hitem => ?_) h
    exact .part (mem_applied_of_single hlookup hheeds (Or.inr ⟨rfl, isListed_of_lookup hlist⟩))
      (.furtherItem honly.isListed_prefixItems hlist hlookup hindex hitem)
  · exact absurd h List.not_mem_nil

/-! ### Every keyword -/

lemma complains_of_mem_allOf (hheeds : heeds scope.draft keywords "allOf" = true)
    (hlookup : Entries.lookup "allOf" keywords = some argument)
    (h : violation ∈ allOf judge scope ((argument.items?).getD []) value) :
    m.Complains judge scope keywords value violation := by
  obtain ⟨⟨schema, index⟩, hmem, h⟩ := List.mem_flatMap.1 h
  obtain ⟨inner, hinner, rfl⟩ := List.mem_map.1 h
  have hschema := List.mk_mem_zipIdx_iff_getElem?.1 hmem
  obtain ⟨schemas, rfl⟩ := exists_array_of_mem_items (List.mem_of_getElem? hschema)
  exact .passed (.conjunct hlookup hschema (mem_applied_of_list (by simp) hlookup hschema hheeds)) hinner

/-- **A keyword that applies schemas** complains of what they complain of, or of members that it refuses. -/
lemma complains_of_mem_apply (honly : Json.OnlyPruned keywords)
    (hheeds : heeds scope.draft keywords keyword = true)
    (hlookup : Entries.lookup keyword keywords = some argument)
    (h : violation ∈ apply judge scope keywords keyword argument value) :
    m.Complains judge scope keywords value violation := by
  have hpruned : keyword ∈ Json.applicators → keyword ∈ "definitions" :: "$defs" :: Json.prunedBy := by
    intro happlicator
    by_contra hnot
    rw [honly _ happlicator hnot] at hlookup
    simp at hlookup
  unfold apply at h
  dsimp only at h
  split at h
  case h_1 => exact complains_of_mem_allOf hheeds hlookup h
  -- these two leave the members to `additionalProperties`, if that answers for them
  case h_6 =>
    split at h
    · exact absurd h List.not_mem_nil
    · exact complains_of_mem_properties hheeds hlookup h
  case h_7 =>
    split at h
    · exact absurd h List.not_mem_nil
    · exact complains_of_mem_patternProperties hheeds hlookup h
  case h_8 => exact complains_of_mem_additionalProperties hheeds hlookup h
  case h_12 => exact complains_of_mem_items honly hheeds hlookup h
  case h_14 => exact complains_of_mem_additionalItems honly hheeds hlookup h
  case h_16 => exact absurd h List.not_mem_nil
  -- pruning does not go on by the other ones
  all_goals exact absurd (hpruned (by decide)) (by decide)

/-- A keyword that is looked at is heeded, the reference apart. -/
lemma heeds_of_mem_effectiveKeywords (hmem : (keyword, argument) ∈ effectiveKeywords draft keywords)
    (hshape : (draft.shape? keyword).isSome = true) (hkeyword : keyword ≠ "$ref") :
    heeds draft keywords keyword = true := by
  unfold effectiveKeywords at hmem
  split at hmem
  · exact absurd (by simpa using (List.mem_filter.1 hmem).2) hkeyword
  · rename_i hvoid
    simp only [heeds, hshape, Bool.true_and, Bool.not_eq_true']
    simpa using hvoid

lemma complains_of_mem_followReference {reference : String}
    (hlookup : Entries.lookup "$ref" keywords = some (.string reference))
    (h : violation ∈ m.followReference judge scope reference value) :
    m.Complains judge scope keywords value violation := by
  have hreference : Draft.reference? keywords = some reference := by
    rw [Draft.reference?, hlookup]
    rfl
  unfold followReference at h
  split at h
  · exact absurd h List.not_mem_nil
  · rename_i target hresolve
    split at h
    · exact absurd h List.not_mem_nil
    · obtain ⟨inner, hinner, rfl⟩ := List.mem_map.1 h
      exact .referred hreference hresolve hinner

/-- **Keyword by keyword**, there are four things to complain of. -/
lemma complains_of_mem_keywordViolations (honly : Json.OnlyPruned keywords) (hsorted : keywords.Sorted)
    (hmem : (keyword, argument) ∈ effectiveKeywords scope.draft keywords)
    (h : violation ∈ m.keywordViolations judge scope keywords keyword argument value) :
    m.Complains judge scope keywords value violation := by
  have hlookup := Entries.lookup_of_mem hsorted (mem_of_mem_effectiveKeywords hmem)
  unfold keywordViolations at h
  split at h
  · rename_i hread
    refine .own (isAside_of_mem_require ?_ h)
    rintro rfl
    rw [read?_eq_none (by decide)] at hread
    simp at hread
  · exact absurd h List.not_mem_nil
  · split at h
    · exact absurd h List.not_mem_nil
    · rename_i hshape
      split at h
      · exact complains_of_mem_followReference hlookup h
      · rcases List.mem_append.1 h with h | h
        · exact .own (isAside_of_mem_assert h)
        · by_cases hkeyword : keyword = "$ref"
          · subst hkeyword
            exact absurd h List.not_mem_nil
          · have hshape : (scope.draft.shape? keyword).isSome = true := by
              rwa [Bool.not_eq_true, Option.isNone_eq_false_iff] at hshape
            exact complains_of_mem_apply honly (heeds_of_mem_effectiveKeywords hmem hshape hkeyword)
              hlookup h

/-- **What a schema complains of.** -/
lemma complains_of_mem_nodeViolations (honly : Json.OnlyPruned keywords) (hsorted : keywords.Sorted)
    (h : violation ∈ m.nodeViolations judge scope keywords value) :
    m.Complains judge scope keywords value violation := by
  obtain ⟨⟨keyword, argument⟩, hmem, h⟩ := List.mem_flatMap.1 h
  exact complains_of_mem_keywordViolations honly hsorted hmem h

end Matcher

end SchemaAlgebra
