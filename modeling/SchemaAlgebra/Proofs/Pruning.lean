import SchemaAlgebra.Proofs.Acceptance
import SchemaAlgebra.Proofs.Assembly
import SchemaAlgebra.Proofs.Locations
import SchemaAlgebra.Proofs.Termination

/-!
# What pruning leaves as it is

Pruning goes down a value and a document at once.  From a schema it goes on with the same value to
what `allOf` and a reference lead to (`Json.Joins`), and with a part of the value to the schema that
governs that part (`Json.Governs`).  A closed schema has to provide for every member it is gone to
with (`Json.HasRoom`).

* `Plan.Whole` — the nodes of a compiled plan lead to nodes of the plan.
* `Plan.mem_joined_iff` — the nodes that are found to apply where others do are all that do.
* **`Plan.prune_eq_self_iff`** — pruning leaves a value as it is just when every schema that it comes to
  has room for what it comes there with.
-/

namespace SchemaAlgebra

namespace Json

/-! ## Ways of pruning -/

/-- **Who governs what.**  Of a schema with these keywords, the schema that a way leads to governs a
part of a value.  A list of `prefixItems` takes the place of a list of `items`, and what `items` is
about then begins behind it. -/
inductive Governs (keywords : Entries Json) : List String → Json → Json → Prop
  | property {schemas key schema members value} :
      Entries.lookup "properties" keywords = some (.object schemas) → (key, schema) ∈ schemas →
      (key, value) ∈ members → Governs keywords ["properties", key] (.object members) value
  | pattern {schemas source schema key members value} :
      Entries.lookup "patternProperties" keywords = some (.object schemas) →
      (source, schema) ∈ schemas → Matcher.patternOccurs source key = true →
      (key, value) ∈ members →
      Governs keywords ["patternProperties", source] (.object members) value
  | additional {inner key members value} :
      Entries.lookup "additionalProperties" keywords = some (.object inner) →
      Matcher.covers keywords key = false → (key, value) ∈ members →
      Governs keywords ["additionalProperties"] (.object members) value
  | prefixItem {schemas index items value} :
      Entries.lookup "prefixItems" keywords = some (.array schemas) → index < schemas.length →
      items[index]? = some value →
      Governs keywords ["prefixItems", Pointer.indexToken index] (.array items) value
  | listedItem {schemas index items value} : Outline.isListed keywords "prefixItems" = false →
      Entries.lookup "items" keywords = some (.array schemas) → index < schemas.length →
      items[index]? = some value →
      Governs keywords ["items", Pointer.indexToken index] (.array items) value
  | item {inner index items value} :
      Entries.lookup "items" keywords = some (.object inner) →
      Matcher.prefixLength keywords ≤ index → items[index]? = some value →
      Governs keywords ["items"] (.array items) value
  | furtherItem {schemas inner index items value} :
      Outline.isListed keywords "prefixItems" = false →
      Entries.lookup "items" keywords = some (.array schemas) →
      Entries.lookup "additionalItems" keywords = some (.object inner) →
      schemas.length ≤ index → items[index]? = some value →
      Governs keywords ["additionalItems"] (.array items) value

/-- Whatever a schema applies to, another one does too. -/
inductive Joins (document : Json) : List String → List String → Prop
  | allOf {path keywords schemas index} : document.walk? path = some (.object keywords) →
      Entries.lookup "allOf" keywords = some (.array schemas) → index < schemas.length →
      Joins document path (path ++ ["allOf", Pointer.indexToken index])
  | reference {path keywords fragment target} : document.walk? path = some (.object keywords) →
      localTarget? keywords = some fragment → Pointer.tokens? fragment = some target →
      (document.walk? target).isSome = true → Joins document path target

/-- Pruning goes on from a place of the document and a value to another place and the same value, or a
part of it. -/
inductive Hands (document : Json) : List String × Json → List String × Json → Prop
  | same {path target value} : Joins document path target →
      Hands document (path, value) (target, value)
  | part {path keywords way value part} : document.walk? path = some (.object keywords) →
      Governs keywords way value part → Hands document (path, value) (path ++ way, part)

/-- If the schema at a place is closed, it provides for all members of a value. -/
def HasRoom (document : Json) (path : List String) (value : Json) : Prop :=
  ∀ keywords members, document.walk? path = some (.object keywords) → value = .object members →
    Entries.lookup "additionalProperties" keywords = some (.bool false) →
    ∀ member ∈ members, Matcher.covers keywords member.1 = true

/-- Every schema that pruning comes to from a place has room for what it comes there with. -/
def HasRoomBelow (document : Json) (path : List String) (value : Json) : Prop :=
  ∀ target inner, Relation.ReflTransGen (Hands document) (path, value) (target, inner) →
    document.HasRoom target inner

lemma Governs.exists_lookup {keywords : Entries Json} {way : List String} {value part : Json}
    (h : Governs keywords way value part) :
    ∃ keyword argument, Entries.lookup keyword keywords = some argument := by
  cases h <;> exact ⟨_, _, by assumption⟩

lemma HasRoomBelow.of_hands {document value part : Json} {path target : List String}
    (h : document.HasRoomBelow path value) (hstep : Hands document (path, value) (target, part)) :
    document.HasRoomBelow target part :=
  fun _ _ hrest => h _ _ (Relation.ReflTransGen.head hstep hrest)

end Json

/-! ## Matchers of patterns -/

namespace Matcher

lemma judge_object {m : Matcher} {steps : ℕ} {scope : Scope} {keywords : Entries Json}
    {value : Json} : m.judge (steps + 1) scope (.object keywords) value
      = m.nodeViolations (m.judge steps) (scope.enter keywords) keywords value := rfl

lemma keywordViolations_pattern {m : Matcher} {judge : Judge} {scope : Scope}
    {keywords : Entries Json} (source key : String) :
    m.keywordViolations judge scope keywords "pattern" (.string source) (.string key)
      = require (patternOccurs source key) "pattern" (.unmatched source) (.string key) := by
  have hshape : (scope.draft.shape? "pattern").isNone = false := by
    cases scope.draft <;> rfl
  simp only [keywordViolations, read?_eq_none (show isExtension "pattern" = false by decide),
    hshape, Bool.false_eq_true, if_false]
  exact List.append_nil _

lemma keywordViolations_type {m : Matcher} {judge : Judge} {scope : Scope}
    {keywords : Entries Json} (key : String) :
    m.keywordViolations judge scope keywords "type" (.string "string") (.string key) = [] := by
  have hshape : (scope.draft.shape? "type").isNone = false := by
    cases scope.draft <;> rfl
  simp only [keywordViolations, read?_eq_none (show isExtension "type" = false by decide), hshape,
    Bool.false_eq_true, if_false]
  rfl

/-- The matcher of a pattern accepts the strings in which the pattern occurs. -/
lemma accepts_patternDocument {options : MatcherOptions} {extensions : List Extension}
    {registry : Registry} {source : String} {m : Matcher}
    (h : Matcher.build options extensions registry (Plan.patternDocument source) = .ok m)
    (key : String) : m.accepts (.string key) = patternOccurs source key := by
  have hroot : m.document.root
      = .object [("pattern", .string source), ("type", .string "string")] := by
    rw [(Matcher.build_ok h).1, Plan.patternDocument_eq]
    simp [Document.ofJson, Entries.erase]
  obtain ⟨steps, hsteps⟩ : ∃ steps, m.budget (.string key) = steps + 1 :=
    ⟨_, Nat.mul_succ _ _⟩
  rw [Matcher.accepts, Matcher.violations, Matcher.violationsOf, hroot, hsteps, judge_object,
    nodeViolations, effectiveKeywords, if_neg (by simp [Draft.reference?, Entries.lookup])]
  simp only [List.flatMap_cons, keywordViolations_pattern, keywordViolations_type]
  cases patternOccurs source key <;> rfl

end Matcher

/-! ## Nodes -/

namespace Outline

variable {document : Json} {pointer child : Pointer} {keywords : Entries Json} {keyword : String}

/-- The keywords at a pointer, none where there is no object. -/
def keywordsAt (document : Json) (pointer : Pointer) : Entries Json :=
  (keywordsAt? document pointer).getD []

lemma read_eq : read document pointer = ofKeywords document pointer (keywordsAt document pointer) := by
  unfold read keywordsAt
  split
  · rename_i keywords hkeywords
    rw [hkeywords, Option.getD_some]
  · rename_i hnone
    rw [hnone]
    rfl

lemma walk?_of_lookup {path : List String} {argument : Json}
    (hpath : Pointer.tokens? pointer = some path)
    (h : Entries.lookup keyword (keywordsAt document pointer) = some argument) :
    document.walk? path = some (.object (keywordsAt document pointer)) := by
  unfold keywordsAt at h ⊢
  cases hkeywords : keywordsAt? document pointer with
  | none => simp [hkeywords] at h
  | some keywords => simpa [Json.resolve?_eq, hpath] using resolve?_of_keywordsAt? hkeywords

lemma keywordsAt_of_walk? {path : List String} (hpath : Pointer.tokens? pointer = some path)
    (h : document.walk? path = some (.object keywords)) :
    keywordsAt document pointer = keywords := by
  rw [keywordsAt, keywordsAt?_of_resolve? (by rw [Json.resolve?_eq, hpath, Option.bind_some, h]),
    Option.getD_some]

lemma prefixLength_eq_zero (h : isListed keywords "prefixItems" = false) :
    Matcher.prefixLength keywords = 0 := by
  unfold isListed at h
  unfold Matcher.prefixLength
  cases hlookup : Entries.lookup "prefixItems" keywords with
  | none => rfl
  | some argument =>
    rw [hlookup] at h
    cases argument <;> simp_all [Json.isArray, Json.items?]

lemma prefixLength_eq {schemas : List Json}
    (h : Entries.lookup "prefixItems" keywords = some (.array schemas)) :
    Matcher.prefixLength keywords = schemas.length := by
  simp [Matcher.prefixLength, h, Json.items?]

lemma itemNode?_of_listed {schemas : List Json} {keyword : String} {further : Option Pointer}
    {outline : Outline} {index : ℕ}
    (hlookup : Entries.lookup keyword keywords = some (.array schemas))
    (hitems : outline.items = .listed (listed pointer keywords keyword))
    (hfurther : outline.additionalItems = further) :
    outline.itemNode? index = some child
      ↔ index < schemas.length ∧ child = Pointer.join pointer [keyword, Pointer.indexToken index]
        ∨ schemas.length ≤ index ∧ further = some child := by
  rw [itemNode?, hitems, hfurther]
  simp only [Option.or_eq_some_iff, getElem?_listed hlookup]
  refine or_congr Iff.rfl (and_congr ?_ Iff.rfl)
  simp [listed, hlookup]

/-- The node of an item, read off the keywords. -/
lemma itemNode?_ofKeywords {index : ℕ} :
    (ofKeywords document pointer keywords).itemNode? index = some child
      ↔ (∃ schemas, Entries.lookup "prefixItems" keywords = some (.array schemas)
          ∧ (index < schemas.length
              ∧ child = Pointer.join pointer ["prefixItems", Pointer.indexToken index]
            ∨ schemas.length ≤ index ∧ single? pointer keywords "items" = some child))
        ∨ isListed keywords "prefixItems" = false
          ∧ ((∃ schemas, Entries.lookup "items" keywords = some (.array schemas)
              ∧ (index < schemas.length
                  ∧ child = Pointer.join pointer ["items", Pointer.indexToken index]
                ∨ schemas.length ≤ index
                  ∧ single? pointer keywords "additionalItems" = some child))
            ∨ single? pointer keywords "items" = some child) := by
  have hitems : (ofKeywords document pointer keywords).items = itemRule pointer keywords := rfl
  have hfurther : (ofKeywords document pointer keywords).additionalItems
      = itemsBeyond? pointer keywords := rfl
  cases hpre : isListed keywords "prefixItems" with
  | true =>
    obtain ⟨schemas, hschemas⟩ := isListed_iff.1 hpre
    rw [itemNode?_of_listed hschemas (by rw [hitems, itemRule, if_pos hpre])
      (by rw [hfurther, itemsBeyond?, if_pos hpre])]
    simp [hschemas]
  | false =>
    have hnone : ∀ schemas, Entries.lookup "prefixItems" keywords ≠ some (.array schemas) :=
      fun schemas h => by simp [isListed_iff.2 ⟨schemas, h⟩] at hpre
    cases hlist : isListed keywords "items" with
    | true =>
      obtain ⟨schemas, hschemas⟩ := isListed_iff.1 hlist
      rw [itemNode?_of_listed hschemas (by rw [hitems, itemRule, hpre, if_neg (by simp), if_pos hlist])
        (by rw [hfurther, itemsBeyond?, hpre, if_neg (by simp), if_pos hlist])]
      simp [hnone, hschemas, single?]
    | false =>
      have hnone' : ∀ schemas, Entries.lookup "items" keywords ≠ some (.array schemas) :=
        fun schemas h => by simp [isListed_iff.2 ⟨schemas, h⟩] at hlist
      rw [itemNode?, hitems, itemRule, hpre, if_neg (by simp), hlist, if_neg (by simp)]
      cases hsingle : single? pointer keywords "items" with
      | none => simp [hnone, hnone']
      | some node => simp [hnone, hnone', eq_comm]

lemma governs_of_itemNode? {items : List Json} {index : ℕ} {value : Json}
    (hitem : items[index]? = some value)
    (h : (ofKeywords document pointer keywords).itemNode? index = some child) :
    ∃ way, child = Pointer.join pointer way ∧ Json.Governs keywords way (.array items) value := by
  rcases itemNode?_ofKeywords.1 h with ⟨schemas, hschemas, h⟩ | ⟨hpre, h⟩
  · rcases h with ⟨hindex, rfl⟩ | ⟨hindex, hsingle⟩
    · exact ⟨_, rfl, .prefixItem hschemas hindex hitem⟩
    · obtain ⟨inner, hinner, rfl⟩ := single?_eq_some.1 hsingle
      exact ⟨_, rfl, .item hinner (by rwa [prefixLength_eq hschemas]) hitem⟩
  · rcases h with ⟨schemas, hschemas, ⟨hindex, rfl⟩ | ⟨hindex, hsingle⟩⟩ | hsingle
    · exact ⟨_, rfl, .listedItem hpre hschemas hindex hitem⟩
    · obtain ⟨inner, hinner, rfl⟩ := single?_eq_some.1 hsingle
      exact ⟨_, rfl, .furtherItem hpre hschemas hinner hindex hitem⟩
    · obtain ⟨inner, hinner, rfl⟩ := single?_eq_some.1 hsingle
      refine ⟨_, rfl, .item hinner ?_ hitem⟩
      rw [prefixLength_eq_zero hpre]
      exact Nat.zero_le index

lemma itemNode?_of_governs {items : List Json} {value : Json} {way : List String}
    (h : Json.Governs keywords way (.array items) value) :
    ∃ index, items[index]? = some value
      ∧ (ofKeywords document pointer keywords).itemNode? index = some (Pointer.join pointer way) := by
  cases h with
  | prefixItem hschemas hindex hitem =>
    exact ⟨_, hitem, itemNode?_ofKeywords.2 (Or.inl ⟨_, hschemas, Or.inl ⟨hindex, rfl⟩⟩)⟩
  | listedItem hpre hschemas hindex hitem =>
    exact ⟨_, hitem, itemNode?_ofKeywords.2
      (Or.inr ⟨hpre, Or.inl ⟨_, hschemas, Or.inl ⟨hindex, rfl⟩⟩⟩)⟩
  | furtherItem hpre hschemas hinner hindex hitem =>
    exact ⟨_, hitem, itemNode?_ofKeywords.2 (Or.inr ⟨hpre, Or.inl ⟨_, hschemas,
      Or.inr ⟨hindex, single?_eq_some.2 ⟨_, hinner, rfl⟩⟩⟩⟩)⟩
  | item hinner hindex hitem =>
    have hsingle : single? pointer keywords "items" = some (Pointer.join pointer ["items"]) :=
      single?_eq_some.2 ⟨_, hinner, rfl⟩
    refine ⟨_, hitem, itemNode?_ofKeywords.2 ?_⟩
    cases hpre : isListed keywords "prefixItems" with
    | true =>
      obtain ⟨schemas, hschemas⟩ := isListed_iff.1 hpre
      rw [prefixLength_eq hschemas] at hindex
      exact Or.inl ⟨schemas, hschemas, Or.inr ⟨hindex, hsingle⟩⟩
    | false => exact Or.inr ⟨rfl, Or.inr hsingle⟩

lemma mem_children_of_member {outline : Outline}
    (h : child ∈ outline.properties.map Prod.snd ∨ child ∈ outline.patterns.map Prod.snd
      ∨ child ∈ outline.additional.toList) : child ∈ outline.children := by
  simp only [children, List.append_assoc, List.mem_append]
  rcases h with h | h | h
  · exact Or.inl h
  · exact Or.inr (Or.inl h)
  · exact Or.inr (Or.inr (Or.inl h))

lemma mem_children_of_itemNode? {outline : Outline} {index : ℕ}
    (h : outline.itemNode? index = some child) : child ∈ outline.children := by
  have hitem : child ∈ itemNodes outline.items ∨ child ∈ outline.additionalItems.toList := by
    unfold itemNode? at h
    split at h
    · simp at h
    · rename_i node hitems
      simp [hitems, itemNodes, Option.some.inj h]
    · rename_i nodes hitems
      rcases Option.or_eq_some_iff.1 h with h | ⟨-, h⟩
      · simp [hitems, itemNodes, List.mem_of_getElem? h]
      · simp [h]
  simp only [children, List.append_assoc, List.mem_append]
  rcases hitem with h | h
  · exact Or.inr (Or.inr (Or.inr (Or.inl h)))
  · exact Or.inr (Or.inr (Or.inr (Or.inr (Or.inl h))))

/-- The nodes that apply to the same value lie where `allOf` and the reference lead. -/
lemma joins_of_mem_conjuncts {path : List String} (hpath : Pointer.tokens? pointer = some path)
    (h : child ∈ (read document pointer).conjuncts) :
    ∃ target, Pointer.tokens? child = some target ∧ document.Joins path target := by
  cases hkeywords : keywordsAt? document pointer with
  | none => simp [read, hkeywords, conjuncts] at h
  | some keywords =>
  rw [read_of_keywordsAt? hkeywords] at h
  have hwalk : document.walk? path = some (.object keywords) := by
    simpa [Json.resolve?_eq, hpath] using resolve?_of_keywordsAt? hkeywords
  rcases List.mem_append.1 h with h | h
  · obtain ⟨schemas, index, hschemas, hindex, rfl⟩ := mem_listed_iff.1 h
    refine ⟨path ++ ["allOf", Pointer.indexToken index], ?_, .allOf hwalk hschemas hindex⟩
    rw [Pointer.tokens?_join, hpath, Option.map_some]
  · obtain ⟨hfragment, hsome⟩ := Option.filter_eq_some_iff.1 (Option.mem_toList.1 h)
    rw [Json.resolve?_eq] at hsome
    obtain ⟨value, hvalue⟩ := Option.isSome_iff_exists.1 hsome
    obtain ⟨target, htarget, hvalue⟩ := Option.bind_eq_some_iff.1 hvalue
    exact ⟨target, htarget, .reference hwalk hfragment htarget (by simp [hvalue])⟩

lemma mem_conjuncts_of_joins {path target : List String}
    (hpath : Pointer.tokens? pointer = some path) (h : document.Joins path target) :
    ∃ child ∈ (read document pointer).conjuncts, Pointer.tokens? child = some target := by
  have hread : ∀ keywords, document.walk? path = some (.object keywords) →
      read document pointer = ofKeywords document pointer keywords := fun keywords hwalk =>
    read_of_keywordsAt? (keywordsAt?_of_resolve? (by rw [Json.resolve?_eq, hpath, Option.bind_some, hwalk]))
  cases h with
  | allOf hwalk hschemas hindex =>
    rw [hread _ hwalk]
    refine ⟨_, List.mem_append_left _ (mem_listed_iff.2 ⟨_, _, hschemas, hindex, rfl⟩), ?_⟩
    rw [Pointer.tokens?_join, hpath, Option.map_some]
  | reference hwalk hfragment htarget hsome =>
    rw [hread _ hwalk]
    refine ⟨_, List.mem_append_right _
      (Option.mem_toList.2 (Option.filter_eq_some_iff.2 ⟨hfragment, ?_⟩)), htarget⟩
    rwa [Json.resolve?_eq, htarget, Option.bind_some]

end Outline

namespace PlanNode

variable {document : Json} {pointer child : Pointer} {keywords : Entries Json} {node : PlanNode}
  {key : String} {value : Json}

/-- A node is made from keywords, and the matchers of its patterns accept the keys in which the
patterns occur. -/
structure Reads (node : PlanNode) (document : Json) (pointer : Pointer) (keywords : Entries Json) :
    Prop where
  outline : node.outline = Outline.ofKeywords document pointer keywords
  patterns : ∀ child key, (∃ matcher, (matcher, child) ∈ node.patterns
      ∧ matcher.accepts (.string key) = true)
    ↔ ∃ source, (source, child) ∈ node.outline.patterns
      ∧ Matcher.patternOccurs source key = true

lemma Reads.properties (h : node.Reads document pointer keywords) :
    node.outline.properties = Outline.named pointer keywords "properties" := by
  rw [h.outline]
  rfl

lemma Reads.patterns_eq (h : node.Reads document pointer keywords) :
    node.outline.patterns = Outline.named pointer keywords "patternProperties" := by
  rw [h.outline]
  rfl

lemma Reads.hasPatternFor_iff (h : node.Reads document pointer keywords) :
    node.hasPatternFor key = true ↔ Matcher.patternsFor keywords key ≠ [] := by
  constructor
  · intro hpattern
    obtain ⟨⟨matcher, child⟩, hmem, haccepts⟩ := List.any_eq_true.1 hpattern
    obtain ⟨source, hsource, hoccurs⟩ := (h.patterns child key).1 ⟨matcher, hmem, haccepts⟩
    rw [h.patterns_eq] at hsource
    obtain ⟨schemas, schema, hlookup, hschema, -⟩ := Outline.mem_named_iff.1 hsource
    exact List.ne_nil_of_mem (Matcher.mem_patternsFor hlookup hschema hoccurs)
  · intro hne
    obtain ⟨⟨source, schema⟩, hmem⟩ := List.exists_mem_of_ne_nil _ hne
    obtain ⟨hschema, hoccurs⟩ := List.mem_filter.1 hmem
    obtain ⟨schemas, hlookup, hschema⟩ := Matcher.exists_of_mem_schemasUnder hschema
    have hnamed : (source, Pointer.join pointer ["patternProperties", source])
        ∈ node.outline.patterns := by
      rw [h.patterns_eq]
      exact Outline.mem_named_iff.2 ⟨schemas, schema, hlookup, hschema, rfl⟩
    obtain ⟨matcher, hmatcher, haccepts⟩ := (h.patterns _ key).2 ⟨source, hnamed, hoccurs⟩
    exact List.any_eq_true.2 ⟨_, hmatcher, haccepts⟩

lemma Reads.declares_iff (h : node.Reads document pointer keywords) :
    (node.outline.properties.any fun property => property.1 = key) = true
      ↔ Entries.contains key (Matcher.schemasUnder "properties" keywords) = true := by
  rw [h.properties]
  simp only [Entries.contains, List.any_eq_true, decide_eq_true_eq]
  constructor
  · rintro ⟨⟨name, child⟩, hmem, rfl⟩
    obtain ⟨schemas, schema, hlookup, hschema, -⟩ := Outline.mem_named_iff.1 hmem
    exact ⟨(name, schema), by rwa [Matcher.schemasUnder_eq hlookup], rfl⟩
  · rintro ⟨⟨name, schema⟩, hschema, rfl⟩
    obtain ⟨schemas, hlookup, hschema⟩ := Matcher.exists_of_mem_schemasUnder hschema
    exact ⟨_, Outline.mem_named_iff.2 ⟨schemas, schema, hlookup, hschema, rfl⟩, rfl⟩

/-- Plan and matcher agree on what a schema provides for. -/
lemma Reads.covers_eq (h : node.Reads document pointer keywords) :
    node.covers key = Matcher.covers keywords key := by
  have hpatterns : node.hasPatternFor key = !(Matcher.patternsFor keywords key).isEmpty := by
    rw [Bool.eq_iff_iff, h.hasPatternFor_iff]
    simp
  rw [covers, Matcher.covers, hpatterns, Bool.eq_iff_iff.2 h.declares_iff]

lemma Reads.closed_iff (h : node.Reads document pointer keywords) :
    node.outline.closed = true
      ↔ Entries.lookup "additionalProperties" keywords = some (.bool false) := by
  rw [h.outline]
  exact decide_eq_true_iff

lemma mem_memberNodes_iff : child ∈ node.memberNodes key
    ↔ (key, child) ∈ node.outline.properties
      ∨ (∃ matcher, (matcher, child) ∈ node.patterns ∧ matcher.accepts (.string key) = true)
      ∨ node.outline.additional = some child ∧ node.covers key = false := by
  simp only [memberNodes, memberRules, List.filter_append, List.map_append, List.mem_append,
    List.mem_map, List.mem_filter]
  constructor
  · rintro ((⟨_, ⟨⟨⟨name, node⟩, hmem, rfl⟩, hkey⟩, rfl⟩ | ⟨_, ⟨⟨⟨m, node⟩, hmem, rfl⟩, hkey⟩, rfl⟩)
      | ⟨_, ⟨⟨other, hmem, rfl⟩, hkey⟩, rfl⟩)
    · simp only [beq_iff_eq] at hkey
      exact Or.inl (hkey ▸ hmem)
    · exact Or.inr (Or.inl ⟨m, hmem, hkey⟩)
    · exact Or.inr (Or.inr ⟨Option.mem_toList.1 hmem, by simpa using hkey⟩)
  · rintro (hmem | ⟨m, hmem, hkey⟩ | ⟨hmem, hkey⟩)
    · exact Or.inl (Or.inl ⟨_, ⟨⟨_, hmem, rfl⟩, by simp⟩, rfl⟩)
    · exact Or.inl (Or.inr ⟨_, ⟨⟨_, hmem, rfl⟩, hkey⟩, rfl⟩)
    · exact Or.inr ⟨_, ⟨⟨_, Option.mem_toList.2 hmem, rfl⟩, by simpa using hkey⟩, rfl⟩

lemma Reads.governs_of_mem_memberNodes (h : node.Reads document pointer keywords)
    {members : Entries Json} (hmember : (key, value) ∈ members)
    (hchild : child ∈ node.memberNodes key) :
    ∃ way, child = Pointer.join pointer way ∧ Json.Governs keywords way (.object members) value := by
  rcases mem_memberNodes_iff.1 hchild with hchild | hchild | ⟨hchild, hcovers⟩
  · rw [h.properties] at hchild
    obtain ⟨schemas, schema, hlookup, hschema, rfl⟩ := Outline.mem_named_iff.1 hchild
    exact ⟨_, rfl, .property hlookup hschema hmember⟩
  · obtain ⟨source, hsource, hoccurs⟩ := (h.patterns child key).1 hchild
    rw [h.patterns_eq] at hsource
    obtain ⟨schemas, schema, hlookup, hschema, rfl⟩ := Outline.mem_named_iff.1 hsource
    exact ⟨_, rfl, .pattern hlookup hschema hoccurs hmember⟩
  · rw [h.outline] at hchild
    obtain ⟨inner, hlookup, rfl⟩ := Outline.single?_eq_some.1 hchild
    exact ⟨_, rfl, .additional hlookup (h.covers_eq ▸ hcovers) hmember⟩

lemma Reads.mem_memberNodes_of_governs (h : node.Reads document pointer keywords)
    {members : Entries Json} {way : List String}
    (hgoverns : Json.Governs keywords way (.object members) value) :
    ∃ key, (key, value) ∈ members ∧ Pointer.join pointer way ∈ node.memberNodes key := by
  cases hgoverns with
  | property hlookup hschema hmember =>
    refine ⟨_, hmember, mem_memberNodes_iff.2 (Or.inl ?_)⟩
    rw [h.properties]
    exact Outline.mem_named_iff.2 ⟨_, _, hlookup, hschema, rfl⟩
  | pattern hlookup hschema hoccurs hmember =>
    refine ⟨_, hmember, mem_memberNodes_iff.2 (Or.inr (Or.inl ((h.patterns _ _).2 ⟨_, ?_, hoccurs⟩)))⟩
    rw [h.patterns_eq]
    exact Outline.mem_named_iff.2 ⟨_, _, hlookup, hschema, rfl⟩
  | additional hlookup hcovers hmember =>
    refine ⟨_, hmember, mem_memberNodes_iff.2 (Or.inr (Or.inr ⟨?_, h.covers_eq.trans hcovers⟩))⟩
    rw [h.outline]
    exact Outline.single?_eq_some.2 ⟨_, hlookup, rfl⟩

end PlanNode

/-! ## Pruning -/

namespace Plan

/-! ### One level -/

variable {plan : Plan} {nodes : List PlanNode}

lemma length_pruneMembers_le (members : Entries Json) :
    (plan.pruneMembers nodes members).length ≤ members.length := by
  induction members with
  | nil => simp [pruneMembers]
  | cons member rest ih =>
    obtain ⟨key, value⟩ := member
    rw [pruneMembers]
    split
    · simpa using ih
    · simp only [List.length_cons]
      omega

lemma pruneMembers_eq_self_iff {members : Entries Json} : plan.pruneMembers nodes members = members
    ↔ ∀ member ∈ members, allow nodes member.1 = true
      ∧ plan.pruneAt (nodes.flatMap fun node => node.memberNodes member.1) member.2
        = member.2 := by
  induction members with
  | nil => simp [pruneMembers]
  | cons member rest ih =>
    obtain ⟨key, value⟩ := member
    rw [pruneMembers]
    split
    · rename_i hallow
      simp [ih, hallow]
    · rename_i hallow
      refine iff_of_false (fun h => ?_) fun h => hallow (h _ List.mem_cons_self).1
      have hlength : (plan.pruneMembers nodes rest).length ≤ rest.length :=
        length_pruneMembers_le rest
      rw [h, List.length_cons] at hlength
      omega

lemma pruneItems_eq_self_iff {items : List Json} {first : ℕ} :
    plan.pruneItems nodes first items = items
      ↔ ∀ index item, items[index]? = some item →
        plan.pruneAt (nodes.filterMap fun node => node.outline.itemNode? (first + index)) item
          = item := by
  induction items generalizing first with
  | nil => simp [pruneItems]
  | cons head rest ih =>
    rw [pruneItems, List.cons.injEq, ih]
    constructor
    · rintro ⟨hhead, hrest⟩ index item hitem
      cases index with
      | zero =>
        obtain rfl : head = item := by simpa using hitem
        exact hhead
      | succ index =>
        rw [← Nat.add_assoc, Nat.add_right_comm]
        exact hrest index item (by simpa using hitem)
    · intro h
      refine ⟨h 0 head rfl, fun index item hitem => ?_⟩
      have := h (index + 1) item (by simpa using hitem)
      rwa [← Nat.add_assoc, Nat.add_right_comm] at this

/-! ### Pruning twice -/

mutual

lemma pruneAt_pruneAt (plan : Plan) (entered : List Pointer) : ∀ value : Json,
    plan.pruneAt entered (plan.pruneAt entered value) = plan.pruneAt entered value
  | .object members => by
    simp only [pruneAt, pruneMembers_pruneMembers plan (plan.conjunction entered) members]
  | .array items => by
    simp only [pruneAt, pruneItems_pruneItems plan (plan.conjunction entered) 0 items]
  | .null | .bool _ | .number _ | .string _ => by simp only [pruneAt]

lemma pruneMembers_pruneMembers (plan : Plan) (nodes : List PlanNode) :
    ∀ members : List (String × Json),
      plan.pruneMembers nodes (plan.pruneMembers nodes members) = plan.pruneMembers nodes members
  | [] => by simp only [pruneMembers]
  | (key, value) :: rest => by
    have hrest := pruneMembers_pruneMembers plan nodes rest
    rw [pruneMembers]
    split
    · -- a member keeps its key, by which its nodes are found
      rename_i hallow
      rw [pruneMembers, if_pos hallow, pruneAt_pruneAt, hrest]
    · exact hrest

lemma pruneItems_pruneItems (plan : Plan) (nodes : List PlanNode) (index : ℕ) :
    ∀ items : List Json,
      plan.pruneItems nodes index (plan.pruneItems nodes index items) = plan.pruneItems nodes index items
  | [] => by simp only [pruneItems]
  | item :: rest => by
    simp only [pruneItems, pruneAt_pruneAt, pruneItems_pruneItems plan nodes (index + 1) rest]

end

/-- **Pruning once is enough.** -/
theorem prune_prune (plan : Plan) (value : Json) : plan.prune (plan.prune value) = plan.prune value :=
  pruneAt_pruneAt plan [""] value

/-! ### Compiled plans -/

variable {options : MatcherOptions} {extensions : List Extension} {registry : Registry}
  {schema : Fragment} {settings : Options} {pointer child : Pointer} {keywords : Entries Json}

/-- A node is read off the keywords at its pointer; where there are none, it leads nowhere. -/
lemma reads_node (h : compile (Matcher.build options extensions registry) schema settings
    = .ok plan) (hpointer : pointer ∈ Outline.nodes schema.json) :
    (plan.node pointer).Reads schema.json pointer (Outline.keywordsAt schema.json pointer) := by
  obtain ⟨-, hcompiled⟩ := compiled_node h hpointer
  have houtline := hcompiled.outline.trans Outline.read_eq
  obtain ⟨hall, honly⟩ := mapM_eq_ok hcompiled.patterns
  refine ⟨houtline, fun child key => ⟨?_, ?_⟩⟩
  · rintro ⟨matcher, hmatcher, haccepts⟩
    obtain ⟨_, hentry, hbuild⟩ := honly _ hmatcher
    obtain ⟨⟨source, other⟩, hsource, rfl⟩ := List.mem_map.1 hentry
    obtain ⟨built, hbuilt, hbuild⟩ := bind_eq_ok.1 hbuild
    obtain ⟨rfl, rfl⟩ := Prod.mk.inj (Except.ok.inj hbuild)
    rw [Matcher.accepts_patternDocument (mapError_eq_ok.1 hbuilt)] at haccepts
    exact ⟨source, hsource, haccepts⟩
  · rintro ⟨source, hsource, hoccurs⟩
    obtain ⟨_, hmatcher, hbuild⟩ := hall _ (List.mem_map_of_mem hsource)
    obtain ⟨built, hbuilt, hbuild⟩ := bind_eq_ok.1 hbuild
    obtain rfl := Except.ok.inj hbuild
    refine ⟨built, hmatcher, ?_⟩
    rw [Matcher.accepts_patternDocument (mapError_eq_ok.1 hbuilt), hoccurs]

lemma mem_nodes_of_edge {document : Json} (hpointer : pointer ∈ Outline.nodes document)
    (hchild : child ∈ (Outline.read document pointer).children) :
    child ∈ Outline.nodes document :=
  Outline.mem_nodes_iff.2 ((Outline.mem_nodes_iff.1 hpointer).tail hchild)

lemma conjuncts_subset_children {outline : Outline} : outline.conjuncts ⊆ outline.children := by
  intro child h
  simp only [Outline.conjuncts, Outline.children, List.mem_append] at h ⊢
  tauto

/-! ### Plans that hold all they lead to -/

/-- Where the nodes of a plan are. -/
def places (plan : Plan) : List Pointer :=
  plan.nodes.map fun node => node.outline.pointer

/-- The nodes of a plan lead to nodes of the plan. -/
structure Whole (plan : Plan) : Prop where
  root : "" ∈ plan.places
  conjunct : ∀ p ∈ plan.places, ∀ c ∈ (plan.node p).outline.conjuncts, c ∈ plan.places
  inside : ∀ p ∈ plan.places, ∀ c ∈ (plan.node p).insideNodes, c ∈ plan.places

lemma mem_places_iff {build : MatcherBuilder} (h : compile build schema settings = .ok plan) :
    pointer ∈ plan.places ↔ pointer ∈ Outline.nodes schema.json := by
  constructor
  · intro hp
    obtain ⟨node, hnode, rfl⟩ := List.mem_map.1 hp
    exact pointer_mem_nodes h hnode
  · intro hp
    obtain ⟨hmem, hcompiled⟩ := compiled_node h hp
    exact List.mem_map.2 ⟨_, hmem, hcompiled.pointer_eq⟩

lemma mem_nodes_of_child {build : MatcherBuilder} (h : compile build schema settings = .ok plan)
    (hpointer : pointer ∈ Outline.nodes schema.json)
    (hchild : child ∈ (plan.node pointer).outline.children) : child ∈ Outline.nodes schema.json := by
  rw [outline_node h hpointer] at hchild
  exact mem_nodes_of_edge hpointer hchild

lemma insideNodes_subset_children {build : MatcherBuilder} (h : compile build schema settings = .ok plan)
    (hpointer : pointer ∈ Outline.nodes schema.json) :
    (plan.node pointer).insideNodes ⊆ (plan.node pointer).outline.children := by
  intro child hchild
  have hpatterns := pointers_of_buildAll (compiled_node h hpointer).2.patterns
  rw [List.map_map] at hpatterns
  simp only [PlanNode.insideNodes, PlanNode.memberRules, List.mem_append, List.mem_map] at hchild
  rcases hchild with (⟨rule, (⟨property, hproperty, rfl⟩ | ⟨pattern, hpattern, rfl⟩) | ⟨_, hmore, rfl⟩,
    rfl⟩ | hitem) | hitem
  · exact Outline.mem_children_of_member (Or.inl (List.mem_map_of_mem hproperty))
  · refine Outline.mem_children_of_member (Or.inr (Or.inl ?_))
    have hmem := List.mem_map_of_mem hpattern (f := Prod.snd)
    rwa [hpatterns] at hmem
  · exact Outline.mem_children_of_member (Or.inr (Or.inr hmore))
  · simp [Outline.children, hitem]
  · simp [Outline.children, hitem]

lemma whole_of_compile {build : MatcherBuilder} (h : compile build schema settings = .ok plan) :
    plan.Whole := by
  have hchild : ∀ p ∈ plan.places, ∀ c ∈ (plan.node p).outline.children, c ∈ plan.places :=
    fun p hp c hc => (mem_places_iff h).2 (mem_nodes_of_child h ((mem_places_iff h).1 hp) hc)
  exact
    { root := (mem_places_iff h).2 (Outline.mem_nodes_iff.2 Relation.ReflTransGen.refl)
      conjunct := fun p hp c hc => hchild p hp c (conjuncts_subset_children hc)
      inside := fun p hp c hc =>
        hchild p hp c (insideNodes_subset_children h ((mem_places_iff h).1 hp) hc) }

lemma Whole.rule (hw : plan.Whole) (hpointer : pointer ∈ plan.places) {rule : (String → Bool) × Pointer}
    (hrule : rule ∈ (plan.node pointer).memberRules) : rule.2 ∈ plan.places :=
  hw.inside pointer hpointer _ (mem_insideNodes_of_rule hrule)

lemma Whole.member (hw : plan.Whole) (hpointer : pointer ∈ plan.places) {key : String}
    (hchild : child ∈ (plan.node pointer).memberNodes key) : child ∈ plan.places := by
  obtain ⟨rule, hrule, rfl⟩ := List.mem_map.1 hchild
  exact hw.rule hpointer (List.mem_filter.1 hrule).1

lemma Whole.item (hw : plan.Whole) (hpointer : pointer ∈ plan.places) {index : ℕ}
    (hchild : (plan.node pointer).outline.itemNode? index = some child) : child ∈ plan.places :=
  hw.inside pointer hpointer _ (mem_insideNodes_of_item hchild)

/-! ### Nodes that apply together -/

/-- The nodes that apply wherever the given ones do. -/
def joined (plan : Plan) (entered : List Pointer) : List Pointer :=
  Graph.depthFirst (fun p => (plan.node p).outline.conjuncts) plan.places entered

/-- An edge leads to a node that applies where another does. -/
def Joins (plan : Plan) : Pointer → Pointer → Prop :=
  Graph.Leads fun p => (plan.node p).outline.conjuncts

variable {entered : List Pointer}

lemma mem_joined_iff (hw : plan.Whole) (hentered : entered ⊆ plan.places) :
    pointer ∈ plan.joined entered ↔ ∃ a ∈ entered, plan.Joins a pointer :=
  ⟨Graph.leads_of_mem_depthFirst, fun ⟨_, ha, hleads⟩ =>
    Graph.mem_depthFirst_of_leads hw.conjunct hentered ha hleads⟩

lemma joined_subset (hw : plan.Whole) (hentered : entered ⊆ plan.places) :
    plan.joined entered ⊆ plan.places := by
  intro p hp
  obtain ⟨a, ha, hleads⟩ := (mem_joined_iff hw hentered).1 hp
  exact Graph.mem_of_leads hw.conjunct (hentered ha) hleads

lemma conjunct_mem_nodes (h : compile (Matcher.build options extensions registry) schema settings
    = .ok plan) (hpointer : pointer ∈ Outline.nodes schema.json)
    (hchild : child ∈ (plan.node pointer).outline.conjuncts) :
    child ∈ Outline.nodes schema.json :=
  (mem_places_iff h).1 ((whole_of_compile h).conjunct _ ((mem_places_iff h).2 hpointer) _ hchild)

lemma mem_nodes_of_mem_memberNodes (h : compile (Matcher.build options extensions registry) schema
    settings = .ok plan) (hpointer : pointer ∈ Outline.nodes schema.json) {key : String}
    (hchild : child ∈ (plan.node pointer).memberNodes key) : child ∈ Outline.nodes schema.json :=
  (mem_places_iff h).1 ((whole_of_compile h).member ((mem_places_iff h).2 hpointer) hchild)

lemma mem_nodes_of_itemNode? (h : compile (Matcher.build options extensions registry) schema
    settings = .ok plan) (hpointer : pointer ∈ Outline.nodes schema.json) {index : ℕ}
    (hchild : (plan.node pointer).outline.itemNode? index = some child) :
    child ∈ Outline.nodes schema.json :=
  (mem_places_iff h).1 ((whole_of_compile h).item ((mem_places_iff h).2 hpointer) hchild)

/-- The nodes that apply where others do are those that these lead to. -/
lemma mem_conjunction_iff (h : compile (Matcher.build options extensions registry) schema settings
    = .ok plan) (hentered : ∀ p ∈ entered, p ∈ Outline.nodes schema.json)
    {node : PlanNode} : node ∈ plan.conjunction entered
      ↔ ∃ a ∈ entered, ∃ b, plan.Joins a b ∧ node = plan.node b := by
  have hplaces : entered ⊆ plan.places := fun p hp => (mem_places_iff h).2 (hentered p hp)
  constructor
  · intro hnode
    obtain ⟨b, hb, rfl⟩ := List.mem_map.1 hnode
    obtain ⟨a, ha, hjoins⟩ := (mem_joined_iff (whole_of_compile h) hplaces).1 hb
    exact ⟨a, ha, b, hjoins, rfl⟩
  · rintro ⟨a, ha, b, hjoins, rfl⟩
    exact List.mem_map_of_mem ((mem_joined_iff (whole_of_compile h) hplaces).2 ⟨a, ha, hjoins⟩)

lemma exists_of_mem_conjunction (h : compile (Matcher.build options extensions registry) schema
    settings = .ok plan) (hentered : ∀ p ∈ entered, p ∈ Outline.nodes schema.json) {node : PlanNode}
    (hnode : node ∈ plan.conjunction entered) :
    ∃ b ∈ Outline.nodes schema.json, node = plan.node b := by
  obtain ⟨b, hb, rfl⟩ := List.mem_map.1 hnode
  have hplaces : entered ⊆ plan.places := fun p hp => (mem_places_iff h).2 (hentered p hp)
  exact ⟨b, (mem_places_iff h).1 (joined_subset (whole_of_compile h) hplaces hb), rfl⟩

lemma mem_conjunction_of_mem (h : compile (Matcher.build options extensions registry) schema
    settings = .ok plan) (hentered : ∀ p ∈ entered, p ∈ Outline.nodes schema.json)
    (hpointer : pointer ∈ entered) : plan.node pointer ∈ plan.conjunction entered :=
  (mem_conjunction_iff h hentered).2 ⟨_, hpointer, _, Relation.ReflTransGen.refl, rfl⟩

/-- The nodes that apply where one does lie where the document goes on with the same value. -/
lemma leads_to_joined (h : compile (Matcher.build options extensions registry) schema settings
    = .ok plan) (hpointer : pointer ∈ Outline.nodes schema.json) {path : List String}
    (hpath : Pointer.tokens? pointer = some path) (hleads : plan.Joins pointer child) (value : Json) :
    child ∈ Outline.nodes schema.json ∧ ∃ target, Pointer.tokens? child = some target
      ∧ Relation.ReflTransGen (Json.Hands schema.json) (path, value) (target, value) := by
  induction hleads with
  | refl => exact ⟨hpointer, path, hpath, Relation.ReflTransGen.refl⟩
  | @tail b c _ hc ih =>
    obtain ⟨hb, between, hbetween, hhands⟩ := ih
    have hconjunct : c ∈ (Outline.read schema.json b).conjuncts := by
      rwa [← outline_node h hb]
    obtain ⟨target, htarget, hjoins⟩ := Outline.joins_of_mem_conjuncts hbetween hconjunct
    exact ⟨conjunct_mem_nodes h hb hc, target, htarget, hhands.tail (.same hjoins)⟩

lemma mem_nodes_of_mem_memberNodes_conjunction (h : compile (Matcher.build options extensions
    registry) schema settings = .ok plan) {entered : List Pointer}
    (hentered : ∀ p ∈ entered, p ∈ Outline.nodes schema.json) (key : String) :
    ∀ p ∈ (plan.conjunction entered).flatMap (fun node => node.memberNodes key),
      p ∈ Outline.nodes schema.json := by
  intro p hp
  obtain ⟨node, hnode, hp⟩ := List.mem_flatMap.1 hp
  obtain ⟨b, hb, rfl⟩ := exists_of_mem_conjunction h hentered hnode
  exact mem_nodes_of_mem_memberNodes h hb hp

lemma mem_nodes_of_itemNode?_conjunction (h : compile (Matcher.build options extensions registry)
    schema settings = .ok plan) {entered : List Pointer}
    (hentered : ∀ p ∈ entered, p ∈ Outline.nodes schema.json) (index : ℕ) :
    ∀ p ∈ (plan.conjunction entered).filterMap (fun node => node.outline.itemNode? index),
      p ∈ Outline.nodes schema.json := by
  intro p hp
  obtain ⟨node, hnode, hp⟩ := List.mem_filterMap.1 hp
  obtain ⟨b, hb, rfl⟩ := exists_of_mem_conjunction h hentered hnode
  exact mem_nodes_of_itemNode? h hb hp

/-- Room below a schema is room below what governs a part of the value. -/
lemma exists_room_of_governs {document value part : Json} {path way : List String}
    (hpath : Pointer.tokens? pointer = some path) (hroom : document.HasRoomBelow path value)
    (hgoverns : Json.Governs (Outline.keywordsAt document pointer) way value part) :
    ∃ target, Pointer.tokens? (Pointer.join pointer way) = some target
      ∧ document.HasRoomBelow target part := by
  obtain ⟨_, _, hlookup⟩ := hgoverns.exists_lookup
  refine ⟨path ++ way, ?_,
    hroom.of_hands (.part (Outline.walk?_of_lookup hpath hlookup) hgoverns)⟩
  rw [Pointer.tokens?_join, hpath, Option.map_some]

/-- **Nothing is dropped** where every schema has room.  By induction on the depth of the value, as
its parts are less deep. -/
lemma pruneAt_eq_self (h : compile (Matcher.build options extensions registry) schema settings
    = .ok plan) {value : Json} {entered : List Pointer}
    (hentered : ∀ p ∈ entered, p ∈ Outline.nodes schema.json
      ∧ ∃ path, Pointer.tokens? p = some path ∧ schema.json.HasRoomBelow path value) :
    plan.pruneAt entered value = value := by
  induction hdepth : value.depth using Nat.strongRecOn generalizing value entered with
  | ind depth ih =>
    subst hdepth
    -- a conjunct has the room of the entered node that leads to it
    have hconjunction : ∀ node ∈ plan.conjunction entered, ∃ p ∈ Outline.nodes schema.json,
        node = plan.node p ∧ ∃ path, Pointer.tokens? p = some path
          ∧ schema.json.HasRoomBelow path value := by
      intro node hnode
      obtain ⟨a, ha, b, hleads, rfl⟩ :=
        (mem_conjunction_iff h fun p hp => (hentered p hp).1).1 hnode
      obtain ⟨hnodes, path, hpath, hroom⟩ := hentered a ha
      obtain ⟨hb, target, htarget, hhands⟩ := leads_to_joined h hnodes hpath hleads value
      exact ⟨b, hb, rfl, target, htarget, fun _ _ hrest => hroom _ _ (hhands.trans hrest)⟩
    cases value with
    | object members =>
      rw [pruneAt, Json.object.injEq, pruneMembers_eq_self_iff]
      rintro ⟨key, value⟩ hmember
      refine ⟨List.all_eq_true.2 fun node hnode => ?_, ih _ ?_ ?_ rfl⟩
      · obtain ⟨p, hp, rfl, path, hpath, hroom⟩ := hconjunction node hnode
        have hreads := reads_node h hp
        cases hclosed : (plan.node p).outline.closed with
        | false => rfl
        | true =>
          have hlookup := hreads.closed_iff.1 hclosed
          rw [hreads.covers_eq]
          exact hroom _ _ Relation.ReflTransGen.refl _ _ (Outline.walk?_of_lookup hpath hlookup) rfl
            hlookup (key, value) hmember
      · exact Nat.lt_succ_of_le (Json.depth_le_of_mem_members hmember)
      · intro c hc
        obtain ⟨node, hnode, hc⟩ := List.mem_flatMap.1 hc
        obtain ⟨p, hp, rfl, path, hpath, hroom⟩ := hconjunction node hnode
        obtain ⟨way, rfl, hgoverns⟩ := (reads_node h hp).governs_of_mem_memberNodes hmember hc
        exact ⟨mem_nodes_of_mem_memberNodes h hp hc, exists_room_of_governs hpath hroom hgoverns⟩
    | array items =>
      rw [pruneAt, Json.array.injEq, pruneItems_eq_self_iff]
      intro index item hitem
      rw [Nat.zero_add]
      refine ih _ ?_ ?_ rfl
      · exact Nat.lt_succ_of_le (Json.depth_le_of_mem_items (List.mem_of_getElem? hitem))
      · intro c hc
        obtain ⟨node, hnode, hc⟩ := List.mem_filterMap.1 hc
        obtain ⟨p, hp, rfl, path, hpath, hroom⟩ := hconjunction node hnode
        have houtline := (reads_node h hp).outline
        rw [houtline] at hc
        obtain ⟨way, rfl, hgoverns⟩ := Outline.governs_of_itemNode? hitem hc
        exact ⟨mem_nodes_of_itemNode? h hp (houtline ▸ hc),
          exists_room_of_governs hpath hroom hgoverns⟩
    | _ => simp [pruneAt]

/-- What pruning comes to a place with, if it leaves the value at the start as it is: a value that it
leaves as it is, with a node for the place. -/
lemma pruneAt_eq_self_of_hands (h : compile (Matcher.build options extensions registry) schema
    settings = .ok plan) {value : Json} (hprune : plan.prune value = value)
    {state : List String × Json}
    (hhands : Relation.ReflTransGen (Json.Hands schema.json) ([], value) state) :
    ∃ entered, (∀ p ∈ entered, p ∈ Outline.nodes schema.json)
      ∧ plan.pruneAt entered state.2 = state.2
      ∧ ∃ p ∈ Outline.nodes schema.json, plan.node p ∈ plan.conjunction entered
        ∧ Pointer.tokens? p = some state.1 := by
  induction hhands with
  | refl =>
    have hroot : "" ∈ Outline.nodes schema.json :=
      Outline.mem_nodes_iff.2 Relation.ReflTransGen.refl
    have hentered : ∀ p ∈ [""], p ∈ Outline.nodes schema.json := by simpa using hroot
    exact ⟨[""], hentered, hprune, "", hroot, (mem_conjunction_iff h hentered).2
      ⟨"", List.mem_singleton_self _, "", Relation.ReflTransGen.refl, rfl⟩, rfl⟩
  | tail _ hstep ih =>
    obtain ⟨entered, hentered, hself, p, hp, hnode, hpath⟩ := ih
    cases hstep with
    | same hjoins =>
      -- the value stays, and the conjunct belongs to the nodes that were entered already
      obtain ⟨c, hc, htarget⟩ := Outline.mem_conjuncts_of_joins hpath hjoins
      rw [← outline_node h hp] at hc
      obtain ⟨a, ha, b, hleads, hb⟩ := (mem_conjunction_iff h hentered).1 hnode
      refine ⟨entered, hentered, hself, c, conjunct_mem_nodes h hp hc, ?_, htarget⟩
      have hedge : c ∈ (plan.node b).outline.conjuncts := hb ▸ hc
      exact (mem_conjunction_iff h hentered).2 ⟨a, ha, c, hleads.tail hedge, rfl⟩
    | @part path keywords way value part hwalk hgoverns =>
      -- pruning enters the part with the nodes that the conjunction has for it, this one among them
      have hreads := reads_node h hp
      rw [Outline.keywordsAt_of_walk? hpath hwalk] at hreads
      have hchild : Pointer.tokens? (Pointer.join p way) = some (path ++ way) := by
        rw [Pointer.tokens?_join, hpath, Option.map_some]
      cases value with
      | object members =>
        rw [pruneAt, Json.object.injEq, pruneMembers_eq_self_iff] at hself
        obtain ⟨key, hmember, hmem⟩ := hreads.mem_memberNodes_of_governs hgoverns
        have hentered' := mem_nodes_of_mem_memberNodes_conjunction h hentered key
        have hfound : Pointer.join p way
            ∈ (plan.conjunction entered).flatMap fun node => node.memberNodes key :=
          List.mem_flatMap.2 ⟨_, hnode, hmem⟩
        exact ⟨_, hentered', (hself _ hmember).2, _, hentered' _ hfound,
          mem_conjunction_of_mem h hentered' hfound, hchild⟩
      | array items =>
        rw [pruneAt, Json.array.injEq, pruneItems_eq_self_iff] at hself
        obtain ⟨index, hitem, hmem⟩ := Outline.itemNode?_of_governs hgoverns
        rw [← hreads.outline] at hmem
        have hentered' := mem_nodes_of_itemNode?_conjunction h hentered (0 + index)
        rw [← Nat.zero_add index] at hmem
        have hfound : Pointer.join p way ∈ (plan.conjunction entered).filterMap fun node =>
            node.outline.itemNode? (0 + index) := List.mem_filterMap.2 ⟨_, hnode, hmem⟩
        exact ⟨_, hentered', hself _ _ hitem, _, hentered' _ hfound,
          mem_conjunction_of_mem h hentered' hfound, hchild⟩
      | _ => cases hgoverns

/-- **Pruning leaves a value as it is** just when every schema that it comes to has room. -/
lemma prune_eq_self_iff (h : compile (Matcher.build options extensions registry) schema settings
    = .ok plan) {value : Json} : plan.prune value = value ↔ schema.json.HasRoomBelow [] value := by
  constructor
  · intro hprune path inner hhands keywords members hwalk hmembers hlookup member hmember
    obtain ⟨entered, -, hself, p, hp, hnode, hpath⟩ := pruneAt_eq_self_of_hands h hprune hhands
    subst hmembers
    rw [pruneAt, Json.object.injEq, pruneMembers_eq_self_iff] at hself
    have hreads := reads_node h hp
    rw [Outline.keywordsAt_of_walk? hpath hwalk] at hreads
    have hallow := List.all_eq_true.1 (hself member hmember).1 _ hnode
    rw [hreads.closed_iff.2 hlookup, hreads.covers_eq] at hallow
    exact hallow
  · intro hroom
    refine pruneAt_eq_self h fun p hp => ?_
    obtain rfl := List.mem_singleton.1 hp
    exact ⟨Outline.mem_nodes_iff.2 Relation.ReflTransGen.refl, [], rfl, hroom⟩

end Plan

end SchemaAlgebra
