import SchemaAlgebra.Proofs.Plain

/-!
# Questions that matching raises

A schema that is met with a value asks the schemas inside it about the members and items of the value
(`Matcher.AsksMember`, `Matcher.AsksItem`), and about the value itself (`Matcher.AsksValue`).  Where
there are no references, what it finds wrong depends on the answers to these questions, and on what
`propertyNames` says of keys, which are no parts of the value (`Matcher.nodeViolations_congr`).

* `Matcher.Poses` — the questions that come up when a value is matched.
* `Matcher.Poses.sound`, `Matcher.Poses.walk?` — each is about a schema of the document and a part of the
  value.
* `Matcher.Poses.exists_ancestor` — a question about what stands inside a schema comes of one about the
  schema.
-/

namespace SchemaAlgebra

namespace Json

/-- The item of an array at a place. -/
def item? (index : ℕ) (value : Json) : Option Json :=
  value.items?.bind fun items => items[index]?

/-! ## Ways inside a schema -/

variable {keywords : Entries Json} {keyword key : String} {argument value part : Json} {index : ℕ}

/-- The ways through the argument of one keyword are of one length. -/
lemma length_eq_of_mem_insideOf {a b : List String × Json} (ha : a ∈ insideOf keyword argument)
    (hb : b ∈ insideOf keyword argument) : a.1.length = b.1.length := by
  cases argument with
  | object schemas =>
    have hdisjoint : ∀ keyword ∈ singleKeywords, keyword ∉ mapKeywords := by decide
    have hlength : ∀ entry ∈ insideOf keyword (.object schemas),
        entry.1.length = if keyword ∈ mapKeywords then 2 else 1 := by
      intro entry hentry
      rcases List.mem_append.1 hentry with h | h
      · split at h
        · rename_i hkeyword
          obtain ⟨member, -, rfl⟩ := List.mem_map.1 h
          rw [if_pos hkeyword]
          rfl
        · simp at h
      · split at h
        · rename_i hkeyword
          rw [List.mem_singleton.1 h, if_neg (hdisjoint keyword hkeyword)]
          rfl
        · simp at h
    rw [hlength a ha, hlength b hb]
  | array schemas =>
    simp only [insideOf] at ha hb
    split at ha
    · rename_i hkeyword
      obtain ⟨_, -, rfl⟩ := List.mem_map.1 ha
      rw [if_pos hkeyword] at hb
      obtain ⟨_, -, rfl⟩ := List.mem_map.1 hb
      rfl
    · simp at ha
  | _ => simp [insideOf] at ha

/-- A schema directly inside another stands beneath the keyword that leads there. -/
lemma exists_eq_cons_of_mem_inside {entry : List String × Json} {token : String} {path : List String}
    (h : entry ∈ inside keywords) (hentry : entry.1 <+: path) (htoken : [token] <+: path) :
    ∃ rest, entry.1 = token :: rest := by
  obtain ⟨keyword, argument, -, hin⟩ := mem_inside_iff.1 h
  obtain ⟨rest, hrest⟩ := exists_tail_of_mem_insideOf hin
  obtain ⟨more, rfl⟩ := htoken
  rw [hrest] at hentry
  exact ⟨rest, (List.cons_prefix_cons.1 hentry).1 ▸ hrest⟩

/-- **Ways do not overlap**: of the schemas directly inside another, a path leads through one. -/
lemma eq_of_mem_inside {a b : List String × Json} {path : List String} (ha : a ∈ inside keywords)
    (hb : b ∈ inside keywords) (hapath : a.1 <+: path) (hbpath : b.1 <+: path) : a.1 = b.1 := by
  obtain ⟨keyword, argument, hargument, hina⟩ := mem_inside_iff.1 ha
  obtain ⟨other, argument', hargument', hinb⟩ := mem_inside_iff.1 hb
  obtain ⟨rest, hrest⟩ := exists_tail_of_mem_insideOf hina
  obtain ⟨rest', hrest'⟩ := exists_tail_of_mem_insideOf hinb
  obtain rfl : keyword = other := by
    obtain ⟨_, hsame⟩ := exists_eq_cons_of_mem_inside hb hbpath
      ((List.cons_prefix_cons.2 ⟨rfl, List.nil_prefix⟩).trans (hrest ▸ hapath))
    exact (List.cons.inj (hrest'.symm.trans hsame)).1.symm
  obtain rfl : argument = argument' := Option.some.inj (hargument.symm.trans hargument')
  have hlength := length_eq_of_mem_insideOf hina hinb
  exact (List.prefix_of_prefix_length_le hapath hbpath (Nat.le_of_eq hlength)).eq_of_length hlength

lemma walk?_of_member? (h : value.member? key = some part) : value.walk? [key] = some part := by
  cases value with
  | object members => rw [walk?_object h, walk?_nil]
  | _ => simp [member?] at h

lemma walk?_of_item? (h : value.item? index = some part) :
    value.walk? [Pointer.indexToken index] = some part := by
  cases value with
  | array items => rw [walk?_array h, walk?_nil]
  | _ => simp [item?, items?] at h

end Json

/-! ## Questions -/

/-- What a schema of a document has to say about a value. -/
structure Question where
  /-- Where the schema stands. -/
  location : Location
  /-- The way to the value from the whole value. -/
  place : List String
  /-- The value. -/
  value : Json

namespace Matcher

/-- The schema that a way leads to answers for members under a key. -/
inductive AsksMember (keywords : Entries Json) (key : String) : List String → Prop
  | property {schemas schema} : Entries.lookup "properties" keywords = some (.object schemas) →
      (key, schema) ∈ schemas → AsksMember keywords key ["properties", key]
  | pattern {schemas source schema} :
      Entries.lookup "patternProperties" keywords = some (.object schemas) →
      (source, schema) ∈ schemas → patternOccurs source key = true →
      AsksMember keywords key ["patternProperties", source]
  | additional {inner} : Entries.lookup "additionalProperties" keywords = some (.object inner) →
      covers keywords key = false → AsksMember keywords key ["additionalProperties"]

/-- The schema that a way leads to answers for items at a place. -/
inductive AsksItem (keywords : Entries Json) (index : ℕ) : List String → Prop
  | prefixItem {schemas} : Entries.lookup "prefixItems" keywords = some (.array schemas) →
      index < schemas.length → AsksItem keywords index ["prefixItems", Pointer.indexToken index]
  | listedItem {schemas} : Entries.lookup "items" keywords = some (.array schemas) →
      index < schemas.length → AsksItem keywords index ["items", Pointer.indexToken index]
  | item {inner} : Entries.lookup "items" keywords = some (.object inner) →
      prefixLength keywords ≤ index → AsksItem keywords index ["items"]
  | furtherItem {schemas inner} : Entries.lookup "items" keywords = some (.array schemas) →
      Entries.lookup "additionalItems" keywords = some (.object inner) → schemas.length ≤ index →
      AsksItem keywords index ["additionalItems"]
  | contained {inner} : Entries.lookup "contains" keywords = some (.object inner) →
      AsksItem keywords index ["contains"]

/-- Whether a value satisfies a schema of the document. -/
def grants (m : Matcher) (scope : Scope) (schema value : Json) : Bool :=
  (m.violationsOf scope schema value).isEmpty

/-- The schema that a way leads to answers for the value itself.  What follows a condition does so only
if the condition comes out that way, and what depends on a member only if the member is there. -/
inductive AsksValue (m : Matcher) (scope : Scope) (keywords : Entries Json) (value : Json) :
    List String → Prop
  | combined {keyword schemas index} : keyword ∈ ["allOf", "anyOf", "oneOf"] →
      Entries.lookup keyword keywords = some (.array schemas) → index < schemas.length →
      AsksValue m scope keywords value [keyword, Pointer.indexToken index]
  | negated {inner} : Entries.lookup "not" keywords = some (.object inner) →
      AsksValue m scope keywords value ["not"]
  | dependent {keyword schemas name schema} : keyword ∈ ["dependencies", "dependentSchemas"] →
      Entries.lookup keyword keywords = some (.object schemas) → (name, schema) ∈ schemas →
      (value.member? name).isSome = true → AsksValue m scope keywords value [keyword, name]
  | condition {inner} : Entries.lookup "if" keywords = some (.object inner) →
      AsksValue m scope keywords value ["if"]
  | consequent {condition} : Entries.lookup "if" keywords = some condition →
      m.grants scope condition value = true → AsksValue m scope keywords value ["then"]
  | alternative {condition} : Entries.lookup "if" keywords = some condition →
      m.grants scope condition value = false → AsksValue m scope keywords value ["else"]

/-- The schema that a way leads to is asked about a part of a value, which the tokens lead to. -/
inductive Concerns (m : Matcher) (scope : Scope) (keywords : Entries Json) (value : Json) :
    List String → List String → Json → Prop
  | member {key way part} : AsksMember keywords key way → value.member? key = some part →
      Concerns m scope keywords value way [key] part
  | item {index way part} : AsksItem keywords index way → value.item? index = some part →
      Concerns m scope keywords value way [Pointer.indexToken index] part
  | itself {way} : m.AsksValue scope keywords value way → Concerns m scope keywords value way [] value

/-- Answering a question raises another one, by a keyword that the dialect in force there has. -/
inductive Raises (m : Matcher) : Question → Question → Prop
  | intro {location place value keywords way schema tokens part} : location.value = .object keywords →
      (way, schema) ∈ applied location.inner.draft keywords →
      m.Concerns location.inner keywords value way tokens part →
      Raises m ⟨location, place, value⟩
        ⟨⟨location.inner, location.path ++ way, schema⟩, place ++ tokens, part⟩

/-- The question that matching a value starts with. -/
def rootQuestion (m : Matcher) (value : Json) : Question :=
  ⟨m.document.rootLocation, [], value⟩

/-- A question comes up when a value is matched. -/
def Poses (m : Matcher) (value : Json) (question : Question) : Prop :=
  Relation.ReflTransGen m.Raises (m.rootQuestion value) question

variable {m : Matcher} {scope : Scope} {keywords : Entries Json} {value part : Json}
  {way tokens : List String} {key : String} {index : ℕ} {q r : Question}

/-! ## What concerns what -/

/-- A way leads through one of some keywords. -/
def Through (keywords : List String) (way : List String) : Prop :=
  ∃ keyword ∈ keywords, ∃ rest, way = keyword :: rest

lemma Through.disjoint {keywords others : List String} (h : Through keywords way)
    (hdisjoint : ∀ keyword ∈ keywords, keyword ∉ others) : ¬Through others way := by
  obtain ⟨keyword, hkeyword, rest, rfl⟩ := h
  rintro ⟨other, hother, rest', hway⟩
  exact hdisjoint keyword hkeyword ((List.cons.inj hway).1 ▸ hother)

/-- The keywords that apply schemas to members. -/
def memberKeywords : List String :=
  ["properties", "patternProperties", "additionalProperties"]

/-- The keywords that apply schemas to items. -/
def itemKeywords : List String :=
  ["prefixItems", "items", "additionalItems", "contains"]

/-- The keywords that apply schemas to the value itself. -/
def inPlaceKeywords : List String :=
  ["allOf", "anyOf", "oneOf", "not", "dependencies", "dependentSchemas", "if", "then", "else"]

lemma AsksMember.through (h : AsksMember keywords key way) : Through memberKeywords way := by
  cases h <;> exact ⟨_, by decide, _, rfl⟩

lemma AsksItem.through (h : AsksItem keywords index way) : Through itemKeywords way := by
  cases h <;> exact ⟨_, by decide, _, rfl⟩

lemma AsksValue.through (h : m.AsksValue scope keywords value way) : Through inPlaceKeywords way := by
  have hsubset : ∀ keyword ∈ ["allOf", "anyOf", "oneOf"] ++ ["dependencies", "dependentSchemas"],
      keyword ∈ inPlaceKeywords := by decide
  cases h with
  | combined hkeyword => exact ⟨_, hsubset _ (List.mem_append_left _ hkeyword), _, rfl⟩
  | dependent hkeyword => exact ⟨_, hsubset _ (List.mem_append_right _ hkeyword), _, rfl⟩
  | _ => exact ⟨_, by decide, _, rfl⟩

namespace Concerns

variable (h : m.Concerns scope keywords value way tokens part)

include h

/-- Of a value, a schema that answers for members is asked about a member. -/
lemma of_member (hway : Through memberKeywords way) :
    ∃ key, AsksMember keywords key way ∧ tokens = [key] ∧ value.member? key = some part := by
  cases h with
  | member hasks hpart => exact ⟨_, hasks, rfl, hpart⟩
  | item hasks => exact absurd hasks.through (hway.disjoint (by decide))
  | itself hasks => exact absurd hasks.through (hway.disjoint (by decide))

/-- A schema that answers for items is asked about an item. -/
lemma of_item (hway : Through itemKeywords way) : ∃ index, AsksItem keywords index way
    ∧ tokens = [Pointer.indexToken index] ∧ value.item? index = some part := by
  cases h with
  | member hasks => exact absurd hasks.through (hway.disjoint (by decide))
  | item hasks hpart => exact ⟨_, hasks, rfl, hpart⟩
  | itself hasks => exact absurd hasks.through (hway.disjoint (by decide))

/-- Other schemas are asked about the value. -/
lemma of_inPlace (hway : Through inPlaceKeywords way) :
    m.AsksValue scope keywords value way ∧ tokens = [] ∧ part = value := by
  cases h with
  | member hasks => exact absurd hasks.through (hway.disjoint (by decide))
  | item hasks => exact absurd hasks.through (hway.disjoint (by decide))
  | itself hasks => exact ⟨hasks, rfl, rfl⟩

/-- How far down a value a schema is asked depends on the way to the schema. -/
lemma length_tokens_eq {scope' : Scope} {value' part' : Json} {tokens' : List String}
    (h' : m.Concerns scope' keywords value' way tokens' part') : tokens.length = tokens'.length := by
  cases h with
  | member hasks =>
    obtain ⟨_, -, rfl, -⟩ := h'.of_member hasks.through
    rfl
  | item hasks =>
    obtain ⟨_, -, rfl, -⟩ := h'.of_item hasks.through
    rfl
  | itself hasks =>
    obtain ⟨-, rfl, -⟩ := h'.of_inPlace hasks.through
    rfl

/-- The tokens lead to the part. -/
lemma walk?_eq : value.walk? tokens = some part := by
  cases h with
  | member _ hpart => exact Json.walk?_of_member? hpart
  | item _ hpart => exact Json.walk?_of_item? hpart
  | itself => rfl

end Concerns

/-! ## What questions are about -/

/-- What a question raises is about a schema directly inside its own. -/
lemma Raises.exists_way (h : m.Raises q r) : ∃ keywords way tokens,
    q.location.value = .object keywords
      ∧ (way, r.location.value) ∈ applied q.location.inner.draft keywords
      ∧ m.Concerns q.location.inner keywords q.value way tokens r.value
      ∧ r.location = ⟨q.location.inner, q.location.path ++ way, r.location.value⟩
      ∧ r.place = q.place ++ tokens := by
  cases h with
  | intro hkeywords hmem hconcerns => exact ⟨_, _, _, hkeywords, hmem, hconcerns, rfl, rfl⟩

lemma mem_inside_of_applied {draft : Draft} {entry : List String × Json}
    (h : entry ∈ applied draft keywords) : entry ∈ Json.inside keywords :=
  (List.mem_filter.1 h).1

/-- Questions go down, in the document and in the value. -/
lemma down_of_raises (h : Relation.ReflTransGen m.Raises q r) :
    q.location.path <+: r.location.path ∧ q.place <+: r.place := by
  induction h with
  | refl => exact ⟨List.prefix_rfl, List.prefix_rfl⟩
  | tail _ hstep ih =>
    obtain ⟨_, _, _, -, -, -, hlocation, hplace⟩ := hstep.exists_way
    rw [hlocation, hplace]
    exact ⟨ih.1.trans (List.prefix_append _ _), ih.2.trans (List.prefix_append _ _)⟩

namespace Poses

/-- **Questions are about schemas** of the document. -/
lemma sound (hroot : m.document.root.WellFormed) (h : m.Poses value q) :
    q.location.Sound m.document.root := by
  induction h with
  | refl => exact Document.rootLocation_sound
  | @tail q r _ hstep ih =>
    obtain ⟨keywords, way, tokens, hkeywords, hmem, -, hlocation, -⟩ := hstep.exists_way
    have hwf := Json.wellFormed_of_walk? hroot ih
    rw [hkeywords] at hwf
    rw [hlocation, Location.Sound, Json.walk?_append,
      show m.document.root.walk? q.location.path = some q.location.value from ih, hkeywords]
    exact Json.walk?_of_mem_inside hwf (mem_inside_of_applied hmem)

/-- **Questions are about parts** of the value. -/
lemma walk? (h : m.Poses value q) : value.walk? q.place = some q.value := by
  induction h with
  | refl => rfl
  | @tail q r _ hstep ih =>
    obtain ⟨_, _, _, -, -, hconcerns, -, hplace⟩ := hstep.exists_way
    rw [hplace, Json.walk?_append, ih]
    exact hconcerns.walk?_eq

/-- A question about what stands inside a schema comes of one about the schema, as far down the value as
any question about it. -/
lemma exists_ancestor (hroot : m.document.root.WellFormed) {whole : Json} (hq : m.Poses value q)
    (hr : m.Poses whole r) (hpath : q.location.path <+: r.location.path) :
    ∃ p, m.Poses whole p ∧ Relation.ReflTransGen m.Raises p r ∧ p.location = q.location
      ∧ p.place.length = q.place.length := by
  induction hq with
  | refl => exact ⟨m.rootQuestion whole, .refl, hr, rfl, rfl⟩
  | @tail before q hbefore hstep ih =>
    obtain ⟨keywords, way, tokens, hkeywords, hmem, hconcerns, hlocation, hplace⟩ := hstep.exists_way
    have hway := congrArg Location.path hlocation
    dsimp only at hway
    obtain ⟨p, hp, hleads, hsame, hlength⟩ := ih ((hway ▸ List.prefix_append _ _).trans hpath)
    rcases Relation.ReflTransGen.cases_head hleads with rfl | ⟨next, hnext, hrest⟩
    · -- the way onward is not empty
      have hlonger := hpath.length_le
      obtain ⟨keyword, argument, -, hin⟩ := Json.mem_inside_iff.1 (mem_inside_of_applied hmem)
      obtain ⟨rest, hrest⟩ := Json.exists_tail_of_mem_insideOf hin
      have hrest : way = keyword :: rest := hrest
      rw [hsame, hway, hrest, List.length_append, List.length_cons] at hlonger
      omega
    · obtain ⟨keywords', way', tokens', hkeywords', hmem', hconcerns', hlocation', hplace'⟩ :=
        hnext.exists_way
      rw [hsame] at hkeywords' hmem' hconcerns' hlocation'
      obtain rfl : keywords = keywords' := Json.object.inj (hkeywords.symm.trans hkeywords')
      have hway' := congrArg Location.path hlocation'
      dsimp only at hway'
      have hsameWay : way' = way := by
        have hdown := (down_of_raises hrest).1
        obtain ⟨more, hmore⟩ := hpath
        rw [hway, List.append_assoc] at hmore
        rw [hway', ← hmore] at hdown
        exact Json.eq_of_mem_inside (mem_inside_of_applied hmem') (mem_inside_of_applied hmem)
          ((List.prefix_append_right_inj _).1 hdown) (List.prefix_append _ _)
      subst hsameWay
      have hnextPoses : m.Poses whole next := hp.tail hnext
      have hvalue : next.location.value = q.location.value := by
        have hnextSound := hnextPoses.sound hroot
        have hsound := Poses.sound hroot (hbefore.tail hstep)
        rw [Location.Sound, hway'] at hnextSound
        rw [Location.Sound, hway] at hsound
        exact Option.some.inj (hnextSound.symm.trans hsound)
      refine ⟨next, hnextPoses, hrest, ?_, ?_⟩
      · rw [hlocation', hlocation, hvalue]
      · rw [hplace, hplace', List.length_append, List.length_append, hlength,
          hconcerns'.length_tokens_eq hconcerns]

/-- A question about what stands inside a schema, and about what is inside a value, comes of one that is
raised where the schema is met with the value. -/
lemma exists_next (hroot : m.document.root.WellFormed) (hq : m.Poses value q) (hr : m.Poses value r)
    {token : String} (hpath : q.location.path ++ [token] <+: r.location.path)
    (hplace : q.place <+: r.place) : ∃ keywords rest schema tokens part,
      q.location.value = .object keywords
        ∧ (token :: rest, schema) ∈ applied q.location.inner.draft keywords
        ∧ m.Concerns q.location.inner keywords q.value (token :: rest) tokens part
        ∧ q.location.path ++ token :: rest <+: r.location.path ∧ q.place ++ tokens <+: r.place := by
  obtain ⟨p, hp, hleads, hsame, hlength⟩ :=
    hq.exists_ancestor hroot hr ((List.prefix_append _ _).trans hpath)
  have hsamePlace : p.place = q.place :=
    (List.prefix_of_prefix_length_le (down_of_raises hleads).2 hplace (Nat.le_of_eq hlength)).eq_of_length
      hlength
  have hsameValue : p.value = q.value := by
    have hwalk := hp.walk?
    rw [hsamePlace, hq.walk?] at hwalk
    exact (Option.some.inj hwalk).symm
  rcases Relation.ReflTransGen.cases_head hleads with rfl | ⟨next, hnext, hrest⟩
  · have hlonger := hpath.length_le
    rw [hsame, List.length_append, List.length_singleton] at hlonger
    omega
  · obtain ⟨keywords, way, tokens, hkeywords, hmem, hconcerns, hlocation, hplace⟩ := hnext.exists_way
    rw [hsame] at hkeywords hmem hconcerns hlocation
    rw [hsameValue] at hconcerns
    have hway := congrArg Location.path hlocation
    dsimp only at hway
    have hdown : q.location.path ++ way <+: r.location.path := hway ▸ (down_of_raises hrest).1
    obtain ⟨rest, hthrough⟩ : ∃ rest, way = token :: rest := by
      obtain ⟨more, hmore⟩ := (List.prefix_append _ _).trans hdown
      rw [← hmore] at hdown hpath
      exact Json.exists_eq_cons_of_mem_inside (mem_inside_of_applied hmem)
        ((List.prefix_append_right_inj _).1 hdown) ((List.prefix_append_right_inj _).1 hpath)
    subst hthrough
    refine ⟨keywords, rest, _, tokens, _, hkeywords, hmem, hconcerns, hdown, ?_⟩
    exact hsamePlace ▸ hplace ▸ (down_of_raises hrest).2

/-- A question about what stands inside a schema directly inside another comes of one about that
schema, and about a part of the value. -/
lemma exists_concern (hroot : m.document.root.WellFormed) (hq : m.Poses value q) (hr : m.Poses value r)
    (hkeywords : q.location.value = .object keywords) {schema : Json}
    (hinside : (way, schema) ∈ Json.inside keywords) (hpath : q.location.path ++ way <+: r.location.path)
    (hplace : q.place <+: r.place) : ∃ tokens part,
      m.Concerns q.location.inner keywords q.value way tokens part ∧ q.place ++ tokens <+: r.place := by
  obtain ⟨keyword, argument, -, hin⟩ := Json.mem_inside_iff.1 hinside
  obtain ⟨rest, hway⟩ := Json.exists_tail_of_mem_insideOf hin
  obtain rfl : way = keyword :: rest := hway
  have htoken : q.location.path ++ [keyword] <+: r.location.path :=
    ((List.prefix_append_right_inj _).2 (List.cons_prefix_cons.2 ⟨rfl, List.nil_prefix⟩)).trans hpath
  obtain ⟨others, rest', schema', tokens, part, hothers, hmem, hconcerns, hpath', htokens⟩ :=
    hq.exists_next hroot hr htoken hplace
  obtain rfl : keywords = others := Json.object.inj (hkeywords.symm.trans hothers)
  have hsame : keyword :: rest' = keyword :: rest := by
    obtain ⟨more, hmore⟩ := (List.prefix_append _ _).trans hpath
    rw [← hmore] at hpath hpath'
    exact Json.eq_of_mem_inside (mem_inside_of_applied hmem) hinside
      ((List.prefix_append_right_inj _).1 hpath') ((List.prefix_append_right_inj _).1 hpath)
  exact ⟨tokens, part, hsame ▸ hconcerns, htokens⟩

/-- In a document without references, questions are about schemas without references. -/
lemma refFree (hroot : m.document.root.RefFree) (h : m.Poses value q) : q.location.value.RefFree := by
  induction h with
  | refl => exact hroot
  | @tail q r _ hstep ih =>
    obtain ⟨keywords, way, _, hkeywords, hmem, -, -, -⟩ := hstep.exists_way
    rw [hkeywords] at ih
    exact ih.of_mem_inside (mem_inside_of_applied hmem)

end Poses

/-! ## Schemas that are asked -/

lemma AsksMember.exists_mem_inside (h : AsksMember keywords key way) :
    ∃ schema, (way, schema) ∈ Json.inside keywords := by
  cases h with
  | property hlookup hschema => exact ⟨_, Json.mem_inside_named (by decide) hlookup hschema⟩
  | pattern hlookup hschema => exact ⟨_, Json.mem_inside_named (by decide) hlookup hschema⟩
  | additional hlookup => exact ⟨_, Json.mem_inside_single (by decide) hlookup rfl⟩

lemma AsksItem.exists_mem_inside (h : AsksItem keywords index way) :
    ∃ schema, (way, schema) ∈ Json.inside keywords := by
  cases h with
  | prefixItem hlookup hindex | listedItem hlookup hindex =>
    exact ⟨_, Json.mem_inside_listed (by decide) hlookup (List.getElem?_eq_getElem hindex)⟩
  | item hlookup | furtherItem _ hlookup | contained hlookup =>
    exact ⟨_, Json.mem_inside_single (by decide) hlookup rfl⟩

/-- A way leads through a keyword that a dialect does not have. -/
def Foreign (draft : Draft) (way : List String) : Prop :=
  ∃ keyword rest, way = keyword :: rest ∧ draft.shape? keyword = none

lemma isSome_shape?_of_applied {draft : Draft} {keyword : String} {rest : List String} {schema : Json}
    (h : (keyword :: rest, schema) ∈ applied draft keywords) : (draft.shape? keyword).isSome = true := by
  have happlied := (List.mem_filter.1 h).2
  simp only [List.head?_cons, Option.any_some, isApplied, Bool.and_eq_true] at happlied
  exact happlied.1.1.1

/-- A keyword is about something, beside the other keywords of its schema. -/
structure Effective (keywords : Entries Json) (keyword : String) : Prop where
  applies : keyword ∉ ["definitions", "$defs"]
  follows : keyword ∈ ["then", "else"] → Entries.contains "if" keywords = true
  goesBeyond : keyword = "additionalItems" → Outline.isListed keywords "items" = true

lemma effective_of_not_mem {keyword : String}
    (h : keyword ∉ ["definitions", "$defs", "then", "else", "additionalItems"]) :
    Effective keywords keyword := by
  simp only [List.mem_cons, List.not_mem_nil, or_false, not_or] at h
  exact ⟨by simp [h.1, h.2.1], by simp [h.2.2.1, h.2.2.2.1], fun hkeyword => absurd hkeyword h.2.2.2.2⟩

/-- A schema directly inside another is applied, if its keyword is heeded and about something. -/
lemma mem_applied_of_heeds {draft : Draft} {keyword : String} {rest : List String} {schema : Json}
    (hheeds : heeds draft keywords keyword = true) (heffective : Effective keywords keyword)
    (h : (keyword :: rest, schema) ∈ Json.inside keywords) :
    (keyword :: rest, schema) ∈ applied draft keywords := by
  rw [heeds, Bool.and_eq_true] at hheeds
  refine List.mem_filter.2 ⟨h, ?_⟩
  simp only [List.head?_cons, Option.any_some, isApplied, hheeds, heffective.applies, not_false_eq_true,
    decide_true, Bool.true_and]
  split
  · exact heffective.follows (by simp)
  · exact heffective.follows (by simp)
  · exact heffective.goesBeyond rfl
  · rfl

lemma mem_applied {draft : Draft} {keyword : String} {rest : List String} {schema : Json}
    (href : Entries.lookup "$ref" keywords = none) (heffective : Effective keywords keyword)
    (hshape : (draft.shape? keyword).isSome = true) (h : (keyword :: rest, schema) ∈ Json.inside keywords) :
    (keyword :: rest, schema) ∈ applied draft keywords := by
  refine mem_applied_of_heeds ?_ heffective h
  rw [heeds, hshape, Draft.reference?, href, Option.bind_none, Option.isSome_none, Bool.and_false]
  rfl

lemma applied_or_foreign {keyword : String} {rest : List String} {schema : Json}
    (href : Entries.lookup "$ref" keywords = none) (heffective : Effective keywords keyword)
    (draft : Draft) (h : (keyword :: rest, schema) ∈ Json.inside keywords) :
    (∃ schema, (keyword :: rest, schema) ∈ applied draft keywords) ∨ Foreign draft (keyword :: rest) := by
  cases hshape : draft.shape? keyword with
  | none => exact Or.inr ⟨keyword, rest, rfl, hshape⟩
  | some shape => exact Or.inl ⟨schema, mem_applied href heffective (hshape ▸ rfl) h⟩

lemma AsksMember.applied_or_foreign (href : Entries.lookup "$ref" keywords = none) (draft : Draft)
    (h : AsksMember keywords key way) :
    (∃ schema, (way, schema) ∈ applied draft keywords) ∨ Foreign draft way := by
  obtain ⟨schema, hinside⟩ := h.exists_mem_inside
  obtain ⟨keyword, hkeyword, rest, rfl⟩ := h.through
  have hplain : ∀ keyword ∈ memberKeywords,
      keyword ∉ ["definitions", "$defs", "then", "else", "additionalItems"] := by decide
  exact Matcher.applied_or_foreign href (effective_of_not_mem (hplain keyword hkeyword)) draft hinside

lemma AsksItem.applied_or_foreign (href : Entries.lookup "$ref" keywords = none) (draft : Draft)
    (h : AsksItem keywords index way) :
    (∃ schema, (way, schema) ∈ applied draft keywords) ∨ Foreign draft way := by
  obtain ⟨schema, hinside⟩ := h.exists_mem_inside
  cases h with
  | furtherItem hlookup =>
    exact Matcher.applied_or_foreign href
      ⟨by decide, fun h => absurd h (by decide), fun _ => isListed_of_lookup hlookup⟩ draft hinside
  | _ => exact Matcher.applied_or_foreign href (effective_of_not_mem (by decide)) draft hinside

/-! ## Schemas that differ in the dialect they announce -/

section Dialect

variable {others : Entries Json} (hsame : Document.SameButDialect keywords others)

include hsame

lemma sameSiblings_of_sameButDialect : SameSiblings keywords others := by
  have hplain : "$schema" ∉ siblingKeywords := by decide
  exact fun key hkey => hsame key fun h => hplain (h ▸ hkey)

lemma AsksMember.congr (h : AsksMember keywords key way) : AsksMember others key way := by
  cases h with
  | property hlookup hschema =>
    exact .property (hsame "properties" (by decide) ▸ hlookup) hschema
  | pattern hlookup hschema hoccurs =>
    exact .pattern (hsame "patternProperties" (by decide) ▸ hlookup) hschema hoccurs
  | additional hlookup hcovers =>
    exact .additional (hsame "additionalProperties" (by decide) ▸ hlookup)
      ((sameSiblings_of_sameButDialect hsame).covers_eq key ▸ hcovers)

lemma AsksItem.congr (h : AsksItem keywords index way) : AsksItem others index way := by
  have hitems := hsame "items" (by decide)
  have hlisted := hsame "prefixItems" (by decide)
  cases h with
  | prefixItem hlookup hindex => exact .prefixItem (hlisted ▸ hlookup) hindex
  | listedItem hlookup hindex => exact .listedItem (hitems ▸ hlookup) hindex
  | item hlookup hindex =>
    refine .item (hitems ▸ hlookup) ?_
    rwa [prefixLength, ← hlisted]
  | furtherItem hlookup hfurther hindex =>
    exact .furtherItem (hitems ▸ hlookup) (hsame "additionalItems" (by decide) ▸ hfurther) hindex
  | contained hlookup => exact .contained (hsame "contains" (by decide) ▸ hlookup)

end Dialect

end Matcher

end SchemaAlgebra
