import SchemaAlgebra.Proofs.Compilation
import SchemaAlgebra.Proofs.Locations

/-!
# Schemas with transforms are nodes of the plan

Matching goes on from a location to those that its keywords apply, and to the one its reference
names (`Document.Applies`).  A transform at a location that matching can come to should run, so the
plan should have a node there, or the schema should not compile.

* The nodes are what the document itself leads to by the steps that the plan takes
  (`Json.HandsOnTo`, `Plan.hasNodeAt_iff`).
* A step that the plan takes too leads from a node to a node.
* Beneath a keyword that hands no value on, compilation refuses every transform (`Json.Bare`).
* The plan misses three kinds of steps (`Document.Missed`): to the items of a list that a list of
  `prefixItems` hides, by a reference that it reads otherwise, and by a reference from a schema that
  is no node, because it stands beneath a keyword that hands no value on.

**`Validator.transforms_are_nodes_iff`** — every transform that matching can come to is at a node
just when the transforms that a missed step leads to are at places that the steps of the plan lead to
as well.
-/

namespace SchemaAlgebra

/-! ## Where matching can go -/

namespace Matcher

/-- Whether a dialect applies the schemas under a keyword. -/
def isApplied (draft : Draft) (keywords : Entries Json) (keyword : String) : Bool :=
  (draft.shape? keyword).isSome && keyword ∉ ["definitions", "$defs"]
    && !(draft.refersAlone && (Draft.reference? keywords).isSome)
    && match keyword with
      | "then" | "else" => Entries.contains "if" keywords
      | "additionalItems" => Outline.isListed keywords "items"
      | _ => true

/-- The schemas that the keywords of a schema apply, with the tokens that lead to them. -/
def applied (draft : Draft) (keywords : Entries Json) : List (List String × Json) :=
  (Json.inside keywords).filter fun entry => entry.1.head?.any (isApplied draft keywords)

end Matcher

namespace Document

/-- A keyword of a schema applies another one inside it. -/
inductive Contains (document : Document) : Location → Location → Prop
  | intro {location keywords tokens value} : location.value = .object keywords →
      (tokens, value) ∈ Matcher.applied location.inner.draft keywords →
      Contains document location ⟨location.inner, location.path ++ tokens, value⟩

/-- A schema makes a reference, local to its document, that names another one. -/
inductive Refers (document : Document) : Location → Location → Prop
  | intro {location keywords fragment target} : location.value = .object keywords →
      Json.localTarget? keywords = some fragment →
      document.resolve? location.inner ("#" ++ fragment) = some target →
      Refers document location target

/-- Matching goes on from a location to another. -/
def Applies (document : Document) (a b : Location) : Prop :=
  document.Contains a b ∨ document.Refers a b

/-- Matching can come to a location. -/
def Evaluates (document : Document) (location : Location) : Prop :=
  Relation.ReflTransGen document.Applies document.rootLocation location

end Document

/-- The schema at a location has transforms. -/
def Location.Transforms (location : Location) : Prop :=
  ∃ keywords, location.value = .object keywords ∧ Entries.contains "transform" keywords = true

/-! ## What the plan misses -/

namespace Plan

/-- The plan has a node, which its first node leads to, for what a path leads to. -/
def HasNodeAt (plan : Plan) (path : List String) : Prop :=
  ∃ node ∈ plan.nodes, Pointer.tokens? node.outline.pointer = some path
    ∧ Graph.Leads (fun pointer => (plan.node pointer).outline.children) "" node.outline.pointer

end Plan

/-- The steps that the plan takes lead from the root of a document to what a path leads to: by a keyword
under which values are handed on, or by a reference read as a pointer. -/
def Json.HandsOnTo (document : Json) (path : List String) : Prop :=
  ∃ pointer, Outline.Reached document pointer ∧ Pointer.tokens? pointer = some path

namespace Document

/-- **Missed steps.**  Steps of matching that the plan of a schema does not take. -/
inductive Missed (document : Document) (schema : Json) : Location → Location → Prop
  /-- To the items of a list, or what is beyond them, beside a list of `prefixItems`. -/
  | hidden {a keywords keyword tokens value} : a.value = .object keywords →
      Outline.isListed keywords "prefixItems" = true → Outline.isListed keywords "items" = true →
      keyword ∈ ["items", "additionalItems"] →
      (keyword :: tokens, value) ∈ Matcher.applied a.inner.draft keywords →
      Missed document schema a ⟨a.inner, a.path ++ keyword :: tokens, value⟩
  /-- By a reference that does not, as a pointer, lead to what it names. -/
  | misread {a b keywords pointer} : document.Refers a b →
      a.value = .object keywords → Json.localTarget? keywords = some pointer →
      Pointer.tokens? pointer ≠ some b.path → Missed document schema a b
  /-- By a reference from a schema to which no value is handed on. -/
  | beneath {a b} : document.Refers a b → ¬ schema.HandsOnTo a.path → Missed document schema a b

/-- A missed step leads to a location, at once or further on. -/
def Astray (document : Document) (schema : Json) (location : Location) : Prop :=
  ∃ a b, document.Evaluates a ∧ document.Missed schema a b
    ∧ Relation.ReflTransGen document.Applies b location

variable {document : Document} {schema : Json} {a b : Location}

lemma Missed.applies (h : document.Missed schema a b) : document.Applies a b := by
  cases h with
  | hidden hvalue _ _ _ hmem => exact Or.inl (.intro hvalue hmem)
  | misread hrefers => exact Or.inr hrefers
  | beneath hrefers => exact Or.inr hrefers

lemma Astray.of_missed (ha : document.Evaluates a) (h : document.Missed schema a b) :
    document.Astray schema b :=
  ⟨a, b, ha, h, Relation.ReflTransGen.refl⟩

lemma Astray.evaluates {location : Location} (h : document.Astray schema location) :
    document.Evaluates location := by
  obtain ⟨a, b, ha, hmissed, hrest⟩ := h
  exact (ha.tail hmissed.applies).trans hrest

end Document

/-! ## Schemas without transforms -/

namespace Json

/-- The keywords of a schema that is inside a value, or is the value itself. -/
inductive Inside : Json → Entries Json → Prop
  | self {keywords} : Inside (.object keywords) keywords
  | step {keywords tokens value inner} : (tokens, value) ∈ inside keywords → Inside value inner →
      Inside (.object keywords) inner

/-- No schema inside the value has transforms. -/
def Bare (value : Json) : Prop :=
  ∀ keywords, Inside value keywords → Entries.contains "transform" keywords = false

lemma Bare.of_mem_inside {keywords : Entries Json} {tokens : List String} {value : Json}
    (h : (Json.object keywords).Bare) (hmem : (tokens, value) ∈ inside keywords) : value.Bare :=
  fun inner hinner => h inner (.step hmem hinner)

/-- The walk over a value comes to all schemas inside it. -/
lemma exists_mem_subschemasWithin {value : Json} {keywords : Entries Json}
    (h : Inside value keywords) {levels : ℕ} (hlevels : value.depth ≤ levels) (pointer : Pointer) :
    ∃ entry ∈ subschemasWithin levels pointer value, entry.2 = keywords := by
  induction h generalizing levels pointer with
  | self =>
    obtain ⟨fewer, rfl⟩ := Nat.exists_eq_succ_of_ne_zero
      (Nat.pos_iff_ne_zero.1 (Nat.lt_of_lt_of_le (Nat.succ_pos _) hlevels))
    exact ⟨_, List.mem_cons_self, rfl⟩
  | @step keywords tokens value inner hmem _ ih =>
    have hdepth := depth_lt_of_mem_inside hmem
    obtain ⟨fewer, rfl⟩ := Nat.exists_eq_succ_of_ne_zero
      (Nat.pos_iff_ne_zero.1 (Nat.lt_of_lt_of_le (Nat.succ_pos _) hlevels))
    obtain ⟨entry, hentry, hinner⟩ :=
      ih (Nat.le_of_lt_succ (Nat.lt_of_lt_of_le hdepth hlevels)) (Pointer.join pointer tokens)
    exact ⟨entry, List.mem_cons_of_mem _ (List.mem_flatMap.2 ⟨_, hmem, hentry⟩), hinner⟩

end Json

namespace Plan

/-- Compilation refuses transforms beneath keywords that hand no value on. -/
lemma bare_of_mem_unvisited {pointer : Pointer} {keywords : Entries Json} {entry : Pointer × Json}
    (h : misplaced? pointer keywords = none) (hentry : entry ∈ unvisited pointer keywords) :
    entry.2.Bare := by
  intro inner hinner
  obtain ⟨subschema, hmem, rfl⟩ :=
    Json.exists_mem_subschemasWithin hinner (Nat.le_refl _) ""
  have hnone := List.findSome?_eq_none_iff.1 h entry hentry
  simp only [Option.map_eq_none_iff, List.find?_eq_none] at hnone
  simpa using hnone subschema hmem

end Plan

/-! ## What a schema applies -/

section Applied

variable {document : Json} {pointer : Pointer} {keywords : Entries Json} {keyword : String}

lemma Json.mem_inside {tokens : List String} {value : Json}
    (h : (tokens, value) ∈ Json.inside keywords) :
    (∃ keyword ∈ Json.mapKeywords, ∃ schemas name, Entries.lookup keyword keywords
        = some (.object schemas) ∧ (name, value) ∈ schemas ∧ tokens = [keyword, name])
      ∨ (∃ keyword ∈ Json.listKeywords, ∃ schemas index, Entries.lookup keyword keywords
        = some (.array schemas) ∧ schemas[index]? = some value
          ∧ tokens = [keyword, Pointer.indexToken index])
      ∨ ∃ keyword ∈ Json.singleKeywords, ∃ inner, Entries.lookup keyword keywords
        = some (.object inner) ∧ value = .object inner ∧ tokens = [keyword] := by
  simp only [Json.inside, List.mem_append, List.mem_flatMap] at h
  rcases h with (⟨keyword, hkeyword, h⟩ | ⟨keyword, hkeyword, h⟩) | ⟨keyword, hkeyword, h⟩
  · split at h
    · rename_i schemas hschemas
      obtain ⟨⟨name, schema⟩, hmem, h⟩ := List.mem_map.1 h
      obtain ⟨rfl, rfl⟩ := Prod.mk.inj h
      exact Or.inl ⟨keyword, hkeyword, schemas, name, hschemas, hmem, rfl⟩
    · simp at h
  · split at h
    · rename_i schemas hschemas
      obtain ⟨⟨schema, index⟩, hmem, h⟩ := List.mem_map.1 h
      obtain ⟨rfl, rfl⟩ := Prod.mk.inj h
      exact Or.inr (Or.inl ⟨keyword, hkeyword, schemas, index, hschemas,
        List.mk_mem_zipIdx_iff_getElem?.1 hmem, rfl⟩)
    · simp at h
  · split at h
    · rename_i inner hinner
      obtain ⟨rfl, rfl⟩ := Prod.mk.inj (List.mem_singleton.1 h)
      exact Or.inr (Or.inr ⟨keyword, hkeyword, inner, hinner, rfl, rfl⟩)
    · simp at h

/-- The tokens of a schema directly inside another lead to it. -/
lemma Json.walk?_of_mem_inside {tokens : List String} {value : Json}
    (hwf : (Json.object keywords).WellFormed) (h : (tokens, value) ∈ Json.inside keywords) :
    (Json.object keywords).walk? tokens = some value := by
  rcases Json.mem_inside h with ⟨keyword, -, schemas, name, hlookup, hvalue, rfl⟩
    | ⟨keyword, -, schemas, index, hlookup, hvalue, rfl⟩ | ⟨keyword, -, inner, hlookup, rfl, rfl⟩
  · have hschemas := Json.wellFormed_of_mem_members hwf.2 (Entries.mem_of_lookup hlookup)
    rw [Json.walk?_object hlookup,
      Json.walk?_object (Entries.lookup_of_mem hschemas.1 hvalue), Json.walk?_nil]
  · rw [Json.walk?_object hlookup, Json.walk?_array hvalue, Json.walk?_nil]
  · rw [Json.walk?_object hlookup, Json.walk?_nil]

/-- Matching goes on to what stands where its way says. -/
lemma Document.Applies.sound {document : Document} (hroot : document.root.WellFormed)
    (hlisted : document.Listed) {a b : Location} (ha : a.Sound document.root)
    (h : document.Applies a b) : b.Sound document.root := by
  rcases h with ⟨hvalue, hmem⟩ | ⟨-, -, hresolve⟩
  · rw [Location.Sound, hvalue] at ha
    have hkeywords := Json.wellFormed_of_walk? hroot ha
    have hwalk := Json.walk?_of_mem_inside hkeywords (List.mem_filter.1 hmem).1
    exact (Json.walk?_append _ _ _).trans (Option.bind_eq_some_iff.2 ⟨_, ha, hwalk⟩)
  · exact Document.resolve?_sound hlisted hresolve

lemma mem_unvisited_single (pointer : Pointer) {value : Json} (hkeyword : keyword ∈ Plan.unvisitedSingles)
    (h : Entries.lookup keyword keywords = some value) :
    (Pointer.join pointer [keyword], value) ∈ Plan.unvisited pointer keywords :=
  List.mem_append_left _ (List.mem_filterMap.2 ⟨keyword, hkeyword, by rw [h]; rfl⟩)

lemma mem_unvisited_map (pointer : Pointer) {schemas : Entries Json} {name : String} {value : Json}
    (hkeyword : keyword ∈ Plan.unvisitedMaps)
    (h : Entries.lookup keyword keywords = some (.object schemas)) (hmem : (name, value) ∈ schemas) :
    (Pointer.join pointer [keyword, name], value) ∈ Plan.unvisited pointer keywords := by
  refine List.mem_append_right _ (List.mem_flatMap.2 ⟨keyword, hkeyword, ?_⟩)
  simp only [h]
  exact List.mem_map.2 ⟨(name, value), hmem, rfl⟩

lemma isListed_of_lookup {schemas : List Json}
    (h : Entries.lookup keyword keywords = some (.array schemas)) :
    Outline.isListed keywords keyword = true :=
  Outline.isListed_iff.2 ⟨schemas, h⟩

/-- **What a schema applies** is what the schema leads to in the plan, or no value is handed on to it,
or a list of `prefixItems` hides it. -/
lemma visits_or_unvisited_or_hidden {draft : Draft} {tokens : List String} {value : Json}
    (h : (tokens, value) ∈ Matcher.applied draft keywords) :
    Outline.Visits document pointer keywords (Pointer.join pointer tokens)
      ∨ (∃ place, (place, value) ∈ Plan.unvisited pointer keywords)
      ∨ Outline.isListed keywords "prefixItems" = true ∧ Outline.isListed keywords "items" = true
        ∧ ∃ keyword ∈ ["items", "additionalItems"], ∃ rest, tokens = keyword :: rest := by
  obtain ⟨hmem, happlied⟩ := List.mem_filter.1 h
  -- a list under `prefixItems` is read in place of one under `items`
  have hhidden : Outline.isListed keywords "prefixItems" ≠ true →
      ∀ others, Entries.lookup "prefixItems" keywords ≠ some (.array others) :=
    fun hlist others hothers => hlist (isListed_of_lookup hothers)
  rcases Json.mem_inside hmem with ⟨keyword, hkeyword, schemas, name, hlookup, hvalue, rfl⟩
    | ⟨keyword, hkeyword, schemas, index, hlookup, hvalue, rfl⟩
    | ⟨keyword, hkeyword, inner, hlookup, rfl, rfl⟩
  · simp only [Json.mapKeywords, List.mem_cons, List.not_mem_nil, or_false] at hkeyword
    rcases hkeyword with rfl | rfl | rfl | rfl | rfl | rfl
    · exact Or.inl (.named (by decide) hlookup hvalue)
    · exact Or.inl (.named (by decide) hlookup hvalue)
    · simp [Matcher.isApplied] at happlied
    · simp [Matcher.isApplied] at happlied
    · exact Or.inr (Or.inl ⟨_, mem_unvisited_map pointer (by decide) hlookup hvalue⟩)
    · exact Or.inr (Or.inl ⟨_, mem_unvisited_map pointer (by decide) hlookup hvalue⟩)
  · obtain ⟨hindex, -⟩ := List.getElem?_eq_some_iff.1 hvalue
    have hlisted : ∀ keyword ∈ Json.listKeywords,
        keyword ∈ ["prefixItems", "allOf", "anyOf", "oneOf"] ∨ keyword = "items" := by decide
    rcases hlisted keyword hkeyword with hlisted | rfl
    · exact Or.inl (.listed hlisted hlookup hindex)
    · by_cases hlist : Outline.isListed keywords "prefixItems" = true
      · exact Or.inr (Or.inr ⟨hlist, isListed_of_lookup hlookup, "items", by decide, _, rfl⟩)
      · exact Or.inl (.tuple (hhidden hlist) hlookup hindex)
  · have hsingle : ∀ keyword ∈ Json.singleKeywords,
        keyword ∈ Plan.unvisitedSingles ∨ keyword ∈ ["additionalProperties", "items"]
        ∨ keyword ∈ ["then", "else"] ∨ keyword = "additionalItems" := by decide
    rcases hsingle keyword hkeyword with hunvisited | hvisited | hfollowing | rfl
    · exact Or.inr (Or.inl ⟨_, mem_unvisited_single pointer hunvisited hlookup⟩)
    · exact Or.inl (.single hvisited hlookup)
    · have hif : Entries.contains "if" keywords = true := by
        obtain rfl | rfl := List.mem_pair.1 hfollowing
        · exact (Bool.and_eq_true_iff.1 happlied).2
        · exact (Bool.and_eq_true_iff.1 happlied).2
      rw [Entries.contains_eq_isSome] at hif
      obtain ⟨condition, hcondition⟩ := Option.isSome_iff_exists.1 hif
      exact Or.inl (.follower hfollowing hcondition hlookup)
    · have hitems : Outline.isListed keywords "items" = true := (Bool.and_eq_true_iff.1 happlied).2
      by_cases hlist : Outline.isListed keywords "prefixItems" = true
      · exact Or.inr (Or.inr ⟨hlist, hitems, "additionalItems", by decide, _, rfl⟩)
      · obtain ⟨schemas, hschemas⟩ := Outline.isListed_iff.1 hitems
        exact Or.inl (.beyond (hhidden hlist) hschemas hlookup)

end Applied

/-! ## The root of a document -/

section Kept

variable {keywords others : Entries Json}

lemma inside_congr (h : Document.SameButDialect keywords others) :
    Json.inside keywords = Json.inside others := by
  have hmap : ∀ keyword ∈ Json.mapKeywords ++ Json.listKeywords ++ Json.singleKeywords,
      Entries.lookup keyword keywords = Entries.lookup keyword others :=
    fun keyword hkeyword => h keyword (by rintro rfl; revert hkeyword; decide)
  simp only [List.mem_append] at hmap
  simp only [Json.inside]
  refine congrArg₂ _ (congrArg₂ _ ?_ ?_) ?_
  · exact List.flatMap_congr fun keyword hkeyword => by rw [hmap keyword (Or.inl (Or.inl hkeyword))]
  · exact List.flatMap_congr fun keyword hkeyword => by rw [hmap keyword (Or.inl (Or.inr hkeyword))]
  · exact List.flatMap_congr fun keyword hkeyword => by rw [hmap keyword (Or.inr hkeyword)]

lemma isApplied_congr (h : Document.SameButDialect keywords others) (draft : Draft) :
    Matcher.isApplied draft keywords = Matcher.isApplied draft others := by
  funext keyword
  simp only [Matcher.isApplied, Draft.reference?, Outline.isListed, h "$ref" (by decide),
    h "items" (by decide), h.contains_eq (show "if" ≠ "$schema" by decide)]

lemma applied_congr (h : Document.SameButDialect keywords others) (draft : Draft) :
    Matcher.applied draft keywords = Matcher.applied draft others := by
  simp only [Matcher.applied, inside_congr h, isApplied_congr h]

/-- What a sound location reads in a document is what the value has there, but for the dialect. -/
lemma resolve?_of_sound {value : Json} {location : Location} {pointer : Pointer}
    (hsound : location.Sound (Document.kept value)) (hkeywords : location.value = .object keywords)
    (hpointer : Pointer.tokens? pointer = some location.path) :
    ∃ others, value.resolve? pointer = some (.object others) ∧ Document.SameButDialect keywords others := by
  rw [Json.resolve?_eq, hpointer, Option.bind_some]
  rw [Location.Sound, hkeywords] at hsound
  exact Document.exists_walk?_of_kept hsound

lemma isSome_walk?_of_sound {value : Json} {location : Location}
    (hsound : location.Sound (Document.kept value)) : (value.walk? location.path).isSome = true := by
  rw [Location.Sound] at hsound
  cases hpath : location.path with
  | nil => rfl
  | cons token path =>
    rw [hpath] at hsound
    rw [Document.walk?_of_kept hsound]
    rfl

end Kept

/-! ## Compiled validators -/

namespace Plan

variable {build : MatcherBuilder} {schema : Fragment} {options : Options} {plan : Plan}

/-- **The nodes of a compiled plan** are at the places to which values are handed on, and the first node
leads to each of them. -/
lemma hasNodeAt_iff (h : compile build schema options = .ok plan) {path : List String} :
    plan.HasNodeAt path ↔ schema.json.HandsOnTo path := by
  constructor
  · rintro ⟨node, hnode, hpath, -⟩
    exact ⟨_, Outline.mem_nodes_iff_reached.1 (pointer_mem_nodes h hnode), hpath⟩
  · rintro ⟨pointer, hreached, hpath⟩
    have hpointer := Outline.mem_nodes_iff_reached.2 hreached
    obtain ⟨hnode, hcompiled⟩ := compiled_node h hpointer
    refine ⟨_, hnode, by rw [hcompiled.pointer_eq, hpath], ?_⟩
    rw [hcompiled.pointer_eq]
    clear hpath hnode hcompiled hpointer
    induction hreached with
    | root => exact Relation.ReflTransGen.refl
    | @step before after keywords hbefore hvalue hvisits ih =>
      have hchildren := congrArg Outline.children
        (outline_node h (Outline.mem_nodes_iff_reached.2 hbefore))
      have hedge := Outline.mem_edges_iff.2 ⟨keywords, hvalue, hvisits⟩
      exact ih.tail (show after ∈ (plan.node before).outline.children from hchildren ▸ hedge)

lemma misplaced?_eq_none (h : compile build schema options = .ok plan) {pointer : Pointer}
    (hpointer : pointer ∈ Outline.nodes schema.json) {keywords : Entries Json}
    (hkeywords : Outline.keywordsAt? schema.json pointer = some keywords) :
    misplaced? pointer keywords = none := by
  have hchain := (compiled_node h hpointer).2.chain
  simp only [chainAt, hkeywords] at hchain
  cases hmisplaced : misplaced? pointer keywords with
  | none => rfl
  | some place => simp [hmisplaced] at hchain

end Plan

namespace Validator

variable {schema : Fragment} {options : Option Options} {validator : Validator}

/-- The matcher reads the schema in the dialect of the options. -/
lemma matcher_document_eq (h : compile schema options = .ok validator) :
    validator.matcher.document
      = Document.ofJson (Options.merged schema.options? options).matcher.effectiveDraft schema.json := by
  obtain ⟨extensions, registry, hmatcher, -⟩ := compile_ok h
  exact congrArg Matcher.document (Matcher.build_ok hmatcher).1

/-- The document of the matcher, and that of the plan. -/
lemma documents (h : compile schema options = .ok validator) :
    (∃ draft, validator.matcher.document = Document.ofJson draft schema.json)
      ∧ ∃ build merged, Plan.compile build schema merged = .ok validator.plan := by
  obtain ⟨extensions, registry, -, hplan⟩ := compile_ok h
  exact ⟨⟨_, matcher_document_eq h⟩, _, _, hplan⟩

lemma sound_of_applies (h : compile schema options = .ok validator) (hwf : schema.json.WellFormed)
    {a b : Location} (ha : a.Sound validator.matcher.document.root)
    (hstep : validator.matcher.document.Applies a b) : b.Sound validator.matcher.document.root := by
  obtain ⟨⟨draft, hdocument⟩, -⟩ := documents h
  refine hstep.sound ?_ ?_ ha
  · rw [hdocument, Document.root_ofJson]
    exact Document.wellFormed_kept hwf
  · rw [hdocument]
    exact Document.listed_ofJson draft hwf

/-- From a schema to which values are handed on, a reference leads to another, or the plan misses it. -/
lemma handsOnTo_or_missed_of_refers (h : compile schema options = .ok validator) {a b : Location}
    (ha : a.Sound validator.matcher.document.root) (hb : b.Sound validator.matcher.document.root)
    (hnode : schema.json.HandsOnTo a.path) (hstep : validator.matcher.document.Refers a b) :
    schema.json.HandsOnTo b.path ∨ validator.matcher.document.Missed schema.json a b := by
  obtain ⟨⟨draft, hdocument⟩, -⟩ := documents h
  obtain ⟨hvalue, hfragment, hresolve⟩ := hstep
  rename_i keywords fragment
  by_cases hpath : Pointer.tokens? fragment = some b.path
  · obtain ⟨pointer, hreached, htokens⟩ := hnode
    rw [hdocument, Document.root_ofJson] at ha hb
    obtain ⟨others, hothers, hsame⟩ := resolve?_of_sound ha hvalue htokens
    have hreference : Entries.lookup "$ref" others = some (.string ("#" ++ fragment)) := by
      rw [← hsame "$ref" (by decide), ← Outline.localTarget?_eq_some, hfragment]
    have htarget : (schema.json.resolve? fragment).isSome = true := by
      rw [Json.resolve?_eq, hpath, Option.bind_some]
      exact isSome_walk?_of_sound hb
    obtain ⟨target, htarget⟩ := Option.isSome_iff_exists.1 htarget
    exact Or.inl ⟨fragment, hreached.step hothers (.reference hreference htarget), hpath⟩
  · exact Or.inr (.misread ⟨hvalue, hfragment, hresolve⟩ hvalue hfragment hpath)

/-- What is inside a schema to which values are handed on is another, or has no transforms, or the plan
misses it. -/
lemma handsOnTo_or_bare_or_missed_of_contains (h : compile schema options = .ok validator)
    {a b : Location} (ha : a.Sound validator.matcher.document.root)
    (hnode : schema.json.HandsOnTo a.path) (hstep : validator.matcher.document.Contains a b) :
    schema.json.HandsOnTo b.path ∨ b.value.Bare
      ∨ validator.matcher.document.Missed schema.json a b := by
  obtain ⟨⟨draft, hdocument⟩, _, _, hplan⟩ := documents h
  obtain ⟨hvalue, hmem⟩ := hstep
  rename_i keywords tokens value
  obtain ⟨pointer, hreached, htokens⟩ := hnode
  rw [hdocument, Document.root_ofJson] at ha
  obtain ⟨others, hothers, hsame⟩ := resolve?_of_sound ha hvalue htokens
  have hmem' := hmem
  rw [applied_congr hsame] at hmem'
  rcases visits_or_unvisited_or_hidden hmem' with hvisits | ⟨place, hplace⟩
    | ⟨hlist, hitems, keyword, hkeyword, rest, rfl⟩
  · exact Or.inl ⟨_, hreached.step hothers hvisits, by rw [Pointer.tokens?_join, htokens]; rfl⟩
  · exact Or.inr (Or.inl (Plan.bare_of_mem_unvisited (Plan.misplaced?_eq_none hplan
      (Outline.mem_nodes_iff_reached.2 hreached) (Outline.keywordsAt?_of_resolve? hothers)) hplace))
  · have hlisted : ∀ {keyword : String}, keyword ≠ "$schema" →
        Outline.isListed others keyword = true → Outline.isListed keywords keyword = true := by
      intro keyword hkeyword hlisted
      rwa [Outline.isListed, hsame keyword hkeyword]
    exact Or.inr (Or.inr (.hidden hvalue (hlisted (by decide) hlist) (hlisted (by decide) hitems)
      hkeyword hmem))

/-- **What matching can come to**, as the plan sees it: a schema to which values are handed on, one
without transforms, or where a missed step leads. -/
lemma handsOnTo_or_bare_or_astray (h : compile schema options = .ok validator)
    (hwf : schema.json.WellFormed) {location : Location}
    (hlocation : validator.matcher.document.Evaluates location) :
    location.Sound validator.matcher.document.root
      ∧ (schema.json.HandsOnTo location.path ∨ location.value.Bare
        ∨ validator.matcher.document.Astray schema.json location) := by
  induction hlocation with
  | refl => exact ⟨Document.rootLocation_sound, Or.inl ⟨"", .root, rfl⟩⟩
  | @tail a b ha hstep ih =>
    obtain ⟨hsound, ih⟩ := ih
    have hsound' := sound_of_applies h hwf hsound hstep
    refine ⟨hsound', ?_⟩
    rcases ih with hnode | hbare | ⟨c, d, hc, hmissed, hrest⟩
    · rcases hstep with hcontains | hrefers
      · exact (handsOnTo_or_bare_or_missed_of_contains h hsound hnode hcontains).imp id
          fun h => h.imp id (.of_missed ha)
      · exact (handsOnTo_or_missed_of_refers h hsound hsound' hnode hrefers).imp id
          fun h => Or.inr (.of_missed ha h)
    · rcases hstep with hcontains | hrefers
      · obtain ⟨hvalue, hmem⟩ := hcontains
        rw [hvalue] at hbare
        exact Or.inr (Or.inl (hbare.of_mem_inside (List.mem_filter.1 hmem).1))
      · by_cases hnode : schema.json.HandsOnTo a.path
        · exact (handsOnTo_or_missed_of_refers h hsound hsound' hnode hrefers).imp id
            fun h => Or.inr (.of_missed ha h)
        · exact Or.inr (Or.inr (.of_missed ha (.beneath hrefers hnode)))
    · exact Or.inr (Or.inr ⟨c, d, hc, hmissed, hrest.tail hstep⟩)

/-- **Transforms are at nodes.**  Every transform that matching can come to is at a node of the plan,
just when the transforms that a missed step leads to stand where the steps of the plan lead to as well;
whether they do is read off the document alone. -/
theorem transforms_are_nodes_iff (h : compile schema options = .ok validator)
    (hwf : schema.json.WellFormed) :
    (∀ location, validator.matcher.document.Evaluates location → location.Transforms →
        validator.plan.HasNodeAt location.path)
      ↔ ∀ location, validator.matcher.document.Astray schema.json location → location.Transforms →
        schema.json.HandsOnTo location.path := by
  obtain ⟨-, _, _, hplan⟩ := documents h
  simp only [Plan.hasNodeAt_iff hplan]
  constructor
  · exact fun hall location hastray => hall location hastray.evaluates
  · intro hastray location hlocation htransforms
    rcases (handsOnTo_or_bare_or_astray h hwf hlocation).2 with hnode | hbare | hlost
    · exact hnode
    · obtain ⟨keywords, hvalue, hcontains⟩ := htransforms
      rw [hvalue] at hbare
      exact absurd hcontains (by simp [hbare keywords .self])
    · exact hastray location hlost htransforms

/-! ## A transform that is left out -/

/-- A schema with a transform that only a reference beneath `not` leads to. -/
def straySchema : Fragment where
  keywords :=
    [("definitions", .object [("r", .object [("transform", .array [.string "t"])])]),
      ("not", .object [("$ref", .string "#/definitions/r")])]

/-- Options with the transform of the schema. -/
def strayOptions : Options where
  transforms := Table.ofPairs [("t", Transform.ofFunction .ok)]

lemma straySchema_wellFormed : straySchema.json.WellFormed := by
  simp only [straySchema, Fragment.json, Json.WellFormed, Json.MembersWellFormed,
    Json.AllWellFormed, Entries.Sorted, and_true]
  decide

lemma exists_strayValidator :
    ∃ validator, compile straySchema (some strayOptions) = .ok validator := by
  have hsome : (compile straySchema (some strayOptions)).toOption.isSome = true := by
    decide +kernel
  cases hcompile : compile straySchema (some strayOptions) with
  | error e => simp [hcompile, Except.toOption] at hsome
  | ok validator => exact ⟨validator, rfl⟩

/-- Matching comes to the transform by way of `not`. -/
lemma stray_evaluates : (Document.ofJson .draft7 straySchema.json).Evaluates
    ⟨⟨.draft7, Document.defaultBase⟩, ["definitions", "r"],
      .object [("transform", .array [.string "t"])]⟩ := by
  have hcontains : (Document.ofJson .draft7 straySchema.json).Contains
      (Document.ofJson .draft7 straySchema.json).rootLocation
      ⟨⟨.draft7, Document.defaultBase⟩, ["not"],
        .object [("$ref", .string "#/definitions/r")]⟩ :=
    .intro rfl (by decide +kernel)
  have hrefers : (Document.ofJson .draft7 straySchema.json).Refers
      ⟨⟨.draft7, Document.defaultBase⟩, ["not"],
        .object [("$ref", .string "#/definitions/r")]⟩
      ⟨⟨.draft7, Document.defaultBase⟩, ["definitions", "r"],
        .object [("transform", .array [.string "t"])]⟩ :=
    .intro rfl rfl (by decide +kernel)
  have hfirst : (Document.ofJson .draft7 straySchema.json).Applies _ _ := Or.inl hcontains
  exact (Relation.ReflTransGen.single hfirst).tail (Or.inr hrefers)

lemma exists_left_out {validator : Validator}
    (h : compile straySchema (some strayOptions) = .ok validator) :
    ∃ location, validator.matcher.document.Evaluates location ∧ location.Transforms
      ∧ ¬ validator.plan.HasNodeAt location.path := by
  obtain ⟨-, _, _, hplan⟩ := documents h
  have hdocument : validator.matcher.document = Document.ofJson .draft7 straySchema.json :=
    matcher_document_eq h
  refine ⟨_, hdocument ▸ stray_evaluates, ⟨_, rfl, by decide⟩, ?_⟩
  rw [Plan.hasNodeAt_iff hplan, Json.HandsOnTo]
  simp only [← Outline.mem_nodes_iff_reached]
  decide +kernel

/-- The schema compiles, and its transform is at no node though matching comes to it. -/
theorem straySchema_leaves_out :
    ∃ validator, compile straySchema (some strayOptions) = .ok validator
      ∧ ¬ ∀ location, validator.matcher.document.Evaluates location → location.Transforms →
        validator.plan.HasNodeAt location.path := by
  obtain ⟨validator, h⟩ := exists_strayValidator
  obtain ⟨location, hlocation, htransforms, hnode⟩ := exists_left_out h
  exact ⟨validator, h, fun hall => hnode (hall location hlocation htransforms)⟩

/-- A missed step leads to the transform that is left out. -/
theorem straySchema_astray :
    ∃ validator, compile straySchema (some strayOptions) = .ok validator
      ∧ straySchema.json.WellFormed
      ∧ ∃ location, validator.matcher.document.Astray straySchema.json location
        ∧ location.Transforms ∧ ¬ straySchema.json.HandsOnTo location.path := by
  obtain ⟨validator, h⟩ := exists_strayValidator
  obtain ⟨location, hlocation, htransforms, hnode⟩ := exists_left_out h
  refine ⟨validator, h, straySchema_wellFormed, ?_⟩
  by_contra hnone
  refine hnode ((transforms_are_nodes_iff h straySchema_wellFormed).2 ?_ location hlocation
    htransforms)
  intro other hastray hother
  by_contra hmissing
  exact hnone ⟨other, hastray, hother, hmissing⟩

end Validator

end SchemaAlgebra
