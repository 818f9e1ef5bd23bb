import SchemaAlgebra.Proofs.Coverage

/-!
# Where subschemas stand

A subschema stands at the end of a path that leads through the arguments of keywords
(`Json.Holds`).  What stands beneath a keyword depends on its argument alone (`Json.insideOf`).

* `Json.mem_subschemas` — the walk over a document comes to the subschemas with their pointers.
* `Outline.stands_of_mem_nodes` — a node that is an object is a subschema, if those are that the
  references of subschemas lead to.
-/

namespace SchemaAlgebra

namespace Json

/-! ## Paths to subschemas -/

/-- At the end of the path there is a subschema, with these keywords. -/
inductive Holds : Json → List String → Entries Json → Prop
  | self {keywords} : Holds (.object keywords) [] keywords
  | step {keywords tokens value path inner} : (tokens, value) ∈ inside keywords →
      Holds value path inner → Holds (.object keywords) (tokens ++ path) inner

lemma Holds.trans {value : Json} {path more : List String} {keywords inner : Entries Json}
    (h : value.Holds path keywords) (hinner : (Json.object keywords).Holds more inner) :
    value.Holds (path ++ more) inner := by
  induction h with
  | self => exact hinner
  | step hmem _ ih =>
    rw [List.append_assoc]
    exact .step hmem (ih hinner)

lemma exists_of_mem_subschemasWithin {levels : ℕ} {pointer : Pointer} {value : Json}
    {entry : Pointer × Entries Json} (h : entry ∈ subschemasWithin levels pointer value) :
    ∃ path, value.Holds path entry.2 ∧ entry.1 = Pointer.join pointer path := by
  induction levels generalizing pointer value with
  | zero => simp [subschemasWithin] at h
  | succ levels ih =>
    cases value with
    | object keywords =>
      rcases List.mem_cons.1 h with rfl | h
      · exact ⟨[], .self, rfl⟩
      · obtain ⟨⟨tokens, value⟩, hinside, h⟩ := List.mem_flatMap.1 h
        obtain ⟨path, hholds, hpointer⟩ := ih h
        exact ⟨tokens ++ path, .step hinside hholds, hpointer.trans (Pointer.join_append _ _ _).symm⟩
    | _ => simp [subschemasWithin] at h

lemma mem_subschemasWithin {value : Json} {path : List String} {keywords : Entries Json}
    (h : value.Holds path keywords) {levels : ℕ} (hlevels : value.depth ≤ levels)
    (pointer : Pointer) :
    (Pointer.join pointer path, keywords) ∈ subschemasWithin levels pointer value := by
  induction h generalizing levels pointer with
  | self =>
    obtain ⟨fewer, rfl⟩ := Nat.exists_eq_succ_of_ne_zero
      (Nat.pos_iff_ne_zero.1 (Nat.lt_of_lt_of_le (Nat.succ_pos _) hlevels))
    exact List.mem_cons_self
  | @step keywords tokens value path inner hmem _ ih =>
    have hdepth := depth_lt_of_mem_inside hmem
    obtain ⟨fewer, rfl⟩ := Nat.exists_eq_succ_of_ne_zero
      (Nat.pos_iff_ne_zero.1 (Nat.lt_of_lt_of_le (Nat.succ_pos _) hlevels))
    rw [Pointer.join_append]
    exact List.mem_cons_of_mem _ (List.mem_flatMap.2 ⟨_, hmem,
      ih (Nat.le_of_lt_succ (Nat.lt_of_lt_of_le hdepth hlevels)) (Pointer.join pointer tokens)⟩)

/-- **The walk over a document** comes to its subschemas, and to nothing else. -/
lemma mem_subschemas {document : Json} {entry : Pointer × Entries Json} :
    entry ∈ document.subschemas
      ↔ ∃ path, document.Holds path entry.2 ∧ entry.1 = Pointer.join "" path := by
  constructor
  · exact exists_of_mem_subschemasWithin
  · rintro ⟨path, hholds, hpointer⟩
    have hmem := mem_subschemasWithin hholds (Nat.le_refl _) ""
    rwa [← hpointer] at hmem

/-! ## What stands beneath a keyword -/

/-- The schemas in the argument of a keyword, with the tokens that lead to them. -/
def insideOf (keyword : String) : Json → List (List String × Json)
  | .object schemas =>
    (if keyword ∈ mapKeywords then schemas.map fun (name, schema) => ([keyword, name], schema)
      else [])
    ++ if keyword ∈ singleKeywords then [([keyword], .object schemas)] else []
  | .array schemas =>
    if keyword ∈ listKeywords then
      schemas.zipIdx.map fun (schema, index) => ([keyword, Pointer.indexToken index], schema)
    else []
  | _ => []

lemma mem_insideOf_single {keyword : String} {keywords : Entries Json}
    (hkeyword : keyword ∈ singleKeywords) :
    ([keyword], .object keywords) ∈ insideOf keyword (.object keywords) := by
  refine List.mem_append_right _ ?_
  rw [if_pos hkeyword]
  exact List.mem_singleton_self _

lemma mem_insideOf_named {keyword : String} {schemas : Entries Json} {member : String × Json}
    (hkeyword : keyword ∈ mapKeywords) (hmember : member ∈ schemas) :
    ([keyword, member.1], member.2) ∈ insideOf keyword (.object schemas) := by
  refine List.mem_append_left _ ?_
  rw [if_pos hkeyword]
  exact List.mem_map.2 ⟨member, hmember, rfl⟩

lemma insideOf_list {keyword : String} (h : keyword ∈ listKeywords) (schemas : List Json)
    {tokens : List String} {value : Json} :
    (tokens, value) ∈ insideOf keyword (.array schemas)
      ↔ ∃ index, schemas[index]? = some value ∧ tokens = [keyword, Pointer.indexToken index] := by
  simp only [insideOf, if_pos h, List.mem_map, Prod.exists, List.mk_mem_zipIdx_iff_getElem?,
    Prod.mk.injEq]
  constructor
  · rintro ⟨schema, index, hschema, rfl, rfl⟩
    exact ⟨index, hschema, rfl⟩
  · rintro ⟨index, hvalue, rfl⟩
    exact ⟨value, index, hvalue, rfl, rfl⟩

lemma mem_inside_iff {keywords : Entries Json} {entry : List String × Json} :
    entry ∈ inside keywords ↔ ∃ keyword argument,
      Entries.lookup keyword keywords = some argument ∧ entry ∈ insideOf keyword argument := by
  constructor
  · intro h
    simp only [inside, List.mem_append, List.mem_flatMap] at h
    rcases h with (⟨keyword, hkeyword, h⟩ | ⟨keyword, hkeyword, h⟩) | ⟨keyword, hkeyword, h⟩
    all_goals
      split at h
      · rename_i hargument
        refine ⟨keyword, _, hargument, ?_⟩
        simp [insideOf, hkeyword, h]
      · simp at h
  · rintro ⟨keyword, argument, hargument, h⟩
    simp only [inside, List.mem_append, List.mem_flatMap]
    cases argument with
    | object schemas =>
      rcases List.mem_append.1 h with h | h
      · split at h
        · rename_i hkeyword
          exact Or.inl (Or.inl ⟨keyword, hkeyword, by rw [hargument]; exact h⟩)
        · simp at h
      · split at h
        · rename_i hkeyword
          exact Or.inr ⟨keyword, hkeyword, by rw [hargument]; exact h⟩
        · simp at h
    | array schemas =>
      simp only [insideOf] at h
      split at h
      · rename_i hkeyword
        exact Or.inl (Or.inr ⟨keyword, hkeyword, by rw [hargument]; exact h⟩)
      · simp at h
    | _ => simp [insideOf] at h

section

variable {keywords : Entries Json} {keyword : String} {argument value : Json}

lemma mem_inside_single (hkeyword : keyword ∈ singleKeywords)
    (hlookup : Entries.lookup keyword keywords = some argument) (hobject : argument.isObject = true) :
    ([keyword], argument) ∈ inside keywords := by
  cases argument with
  | object inner => exact mem_inside_iff.2 ⟨keyword, _, hlookup, mem_insideOf_single hkeyword⟩
  | _ => simp [isObject] at hobject

lemma mem_inside_listed {schemas : List Json} (hkeyword : keyword ∈ listKeywords)
    (hlookup : Entries.lookup keyword keywords = some (.array schemas)) {index : ℕ}
    (hvalue : schemas[index]? = some value) :
    ([keyword, Pointer.indexToken index], value) ∈ inside keywords :=
  mem_inside_iff.2 ⟨keyword, _, hlookup, (insideOf_list hkeyword schemas).2 ⟨index, hvalue, rfl⟩⟩

lemma mem_inside_named {schemas : Entries Json} {name : String} (hkeyword : keyword ∈ mapKeywords)
    (hlookup : Entries.lookup keyword keywords = some (.object schemas))
    (hvalue : (name, value) ∈ schemas) : ([keyword, name], value) ∈ inside keywords :=
  mem_inside_iff.2 ⟨keyword, _, hlookup, mem_insideOf_named hkeyword hvalue⟩

end

/-- The first token is the keyword. -/
lemma exists_tail_of_mem_insideOf {keyword : String} {argument : Json}
    {entry : List String × Json} (h : entry ∈ insideOf keyword argument) :
    ∃ rest, entry.1 = keyword :: rest := by
  cases argument with
  | object schemas =>
    rcases List.mem_append.1 h with h | h
    · split at h
      · obtain ⟨member, -, rfl⟩ := List.mem_map.1 h
        exact ⟨_, rfl⟩
      · simp at h
    · split at h
      · exact ⟨[], congrArg Prod.fst (List.mem_singleton.1 h)⟩
      · simp at h
  | array schemas =>
    simp only [insideOf] at h
    split at h
    · obtain ⟨member, -, rfl⟩ := List.mem_map.1 h
      exact ⟨_, rfl⟩
    · simp at h
  | _ => simp [insideOf] at h

/-- A subschema other than the schema itself stands beneath a keyword. -/
lemma Holds.cases_keyword {keywords inner : Entries Json} {path : List String}
    (h : (Json.object keywords).Holds path inner) :
    path = [] ∧ inner = keywords ∨ ∃ keyword argument tokens value rest,
      Entries.lookup keyword keywords = some argument ∧ (tokens, value) ∈ insideOf keyword argument
        ∧ value.Holds rest inner ∧ path = tokens ++ rest := by
  cases h with
  | self => exact Or.inl ⟨rfl, rfl⟩
  | step hinside hholds =>
    obtain ⟨keyword, argument, hargument, hmem⟩ := mem_inside_iff.1 hinside
    exact Or.inr ⟨keyword, argument, _, _, _, hargument, hmem, hholds, rfl⟩

lemma Holds.of_keyword {keywords inner : Entries Json} {keyword : String} {argument value : Json}
    {tokens rest : List String} (hargument : Entries.lookup keyword keywords = some argument)
    (hmem : (tokens, value) ∈ insideOf keyword argument) (h : value.Holds rest inner) :
    (Json.object keywords).Holds (tokens ++ rest) inner :=
  .step (mem_inside_iff.2 ⟨keyword, argument, hargument, hmem⟩) h

/-- The path of a subschema leads to it. -/
lemma Holds.walk? {value : Json} {path : List String} {keywords : Entries Json}
    (h : value.Holds path keywords) (hwf : value.WellFormed) :
    value.walk? path = some (.object keywords) := by
  induction h with
  | self => rfl
  | step hmem _ ih =>
    have hwalk := walk?_of_mem_inside hwf hmem
    rw [walk?_append, hwalk, Option.bind_some, ih (wellFormed_of_walk? hwf hwalk)]

end Json

/-! ## Nodes -/

namespace Outline

variable {document : Json} {pointer : Pointer} {keywords : Entries Json} {child : Pointer}

/-- The child of a node stands inside it. -/
def StandsIn (pointer : Pointer) (keywords : Entries Json) (child : Pointer) : Prop :=
  ∃ tokens value, (tokens, value) ∈ Json.inside keywords
    ∧ (Json.object keywords).walk? tokens = some value ∧ child = Pointer.join pointer tokens

lemma exists_lookup_of_mem_keys {members : Entries Json} {name : String}
    (h : name ∈ Entries.keys members) : ∃ value, Entries.lookup name members = some value := by
  rw [← Option.isSome_iff_exists, ← Entries.contains_eq_isSome]
  obtain ⟨member, hmember, rfl⟩ := List.mem_map.1 h
  exact List.any_eq_true.2 ⟨member, hmember, by simp⟩

lemma standsIn_of_member {keyword name : String} {schemas : Entries Json} {schema : Json}
    (hkeyword : keyword ∈ Json.mapKeywords) (hlookup : Entries.lookup keyword keywords = some (.object schemas))
    (hname : (name, schema) ∈ schemas) : StandsIn pointer keywords (Pointer.join pointer [keyword, name]) := by
  obtain ⟨value, hvalue⟩ := exists_lookup_of_mem_keys (List.mem_map_of_mem hname)
  refine ⟨[keyword, name], value,
    Json.mem_inside_named hkeyword hlookup (Entries.mem_of_lookup hvalue), ?_, rfl⟩
  rw [Json.walk?_object hlookup, Json.walk?_object hvalue, Json.walk?_nil]

lemma standsIn_of_item {keyword : String} {schemas : List Json} {index : ℕ}
    (hkeyword : keyword ∈ Json.listKeywords) (hlookup : Entries.lookup keyword keywords = some (.array schemas))
    (hindex : index < schemas.length) :
    StandsIn pointer keywords (Pointer.join pointer [keyword, Pointer.indexToken index]) := by
  have hitem := List.getElem?_eq_getElem hindex
  refine ⟨_, _, Json.mem_inside_listed hkeyword hlookup hitem, ?_, rfl⟩
  rw [Json.walk?_object hlookup, Json.walk?_array hitem, Json.walk?_nil]

lemma standsIn_of_argument {keyword : String} {inner : Entries Json}
    (hkeyword : keyword ∈ Json.singleKeywords) (hlookup : Entries.lookup keyword keywords = some (.object inner)) :
    StandsIn pointer keywords (Pointer.join pointer [keyword]) := by
  refine ⟨_, _, Json.mem_inside_single hkeyword hlookup rfl, ?_, rfl⟩
  rw [Json.walk?_object hlookup, Json.walk?_nil]

/-- A node leads to what stands inside it, and where its reference leads. -/
lemma Visits.standsIn_or_target (h : Visits document pointer keywords child) :
    StandsIn pointer keywords child
      ∨ Json.localTarget? keywords = some child ∧ (document.resolve? child).isSome := by
  have hmap : ["properties", "patternProperties"] ⊆ Json.mapKeywords := by decide
  have hlist : ["prefixItems", "allOf", "anyOf", "oneOf"] ⊆ Json.listKeywords := by decide
  have hsingle : ["additionalProperties", "items"] ++ ["then", "else"] ⊆ Json.singleKeywords := by decide
  cases h with
  | named hkeyword hlookup hname => exact Or.inl (standsIn_of_member (hmap hkeyword) hlookup hname)
  | listed hkeyword hlookup hindex => exact Or.inl (standsIn_of_item (hlist hkeyword) hlookup hindex)
  | tuple _ hlookup hindex => exact Or.inl (standsIn_of_item (by decide) hlookup hindex)
  | single hkeyword hlookup =>
    exact Or.inl (standsIn_of_argument (hsingle (List.mem_append_left _ hkeyword)) hlookup)
  | beyond _ _ hlookup => exact Or.inl (standsIn_of_argument (by decide) hlookup)
  | follower hkeyword _ hlookup =>
    exact Or.inl (standsIn_of_argument (hsingle (List.mem_append_right _ hkeyword)) hlookup)
  | reference hlookup hvalue => exact Or.inr ⟨localTarget?_eq_some.2 hlookup, by rw [hvalue]; rfl⟩

lemma localTarget?_eq_none (href : Entries.contains "$ref" keywords = false) :
    Json.localTarget? keywords = none := by
  have hlookup : Entries.lookup "$ref" keywords = none := by
    simpa [Entries.contains_eq_isSome] using href
  simp [Json.localTarget?, hlookup]

/-- Without a reference, a node leads to what stands inside it. -/
lemma standsIn_of_mem_children (href : Entries.contains "$ref" keywords = false)
    (h : child ∈ (ofKeywords document pointer keywords).children) :
    StandsIn pointer keywords child := by
  refine (visits_of_mem_children h).standsIn_or_target.resolve_right fun ⟨htarget, _⟩ => ?_
  simp [localTarget?_eq_none href] at htarget

/-- A node leads somewhere in the document only. -/
lemma isSome_resolve?_of_mem_edges (h : child ∈ edges document pointer) :
    (document.resolve? child).isSome = true := by
  obtain ⟨keywords, hvalue, hvisits⟩ := mem_edges_iff.1 h
  rcases hvisits.standsIn_or_target with ⟨tokens, value, -, hwalk, rfl⟩ | ⟨-, hsome⟩
  · rw [Json.resolve?_join, hvalue, Option.bind_some, hwalk]
    rfl
  · exact hsome

/-- Every node is there. -/
lemma isSome_resolve?_of_mem_nodes (h : pointer ∈ nodes document) :
    (document.resolve? pointer).isSome = true := by
  cases mem_nodes_iff.1 h with
  | refl => rfl
  | tail _ hedge => exact isSome_resolve?_of_mem_edges hedge

/-- What is at a pointer is a subschema of the document, if it is an object at all, and the pointer is
the one by which the walk over the document comes to it. -/
def Stands (document : Json) (pointer : Pointer) : Prop :=
  ∃ path, pointer = Pointer.join "" path
    ∧ ∀ keywords, keywordsAt? document pointer = some keywords → document.Holds path keywords

/-- **Nodes are subschemas**, if what the references of subschemas lead to are. -/
lemma stands_of_mem_nodes
    (htargets : ∀ path keywords, document.Holds path keywords → ∀ target,
      Json.localTarget? keywords = some target → Stands document target)
    (h : pointer ∈ nodes document) : Stands document pointer := by
  have hleads := mem_nodes_iff.1 h
  clear h
  induction hleads with
  | refl =>
    refine ⟨[], rfl, fun keywords hkeywords => ?_⟩
    obtain rfl : document = .object keywords := Option.some.inj (resolve?_of_keywordsAt? hkeywords)
    exact .self
  | @tail pointer child _ hedge ih =>
    obtain ⟨path, rfl, hholds⟩ := ih
    obtain ⟨keywords, hresolve, hvisits⟩ := mem_edges_iff.1 hedge
    have hholds := hholds keywords (keywordsAt?_of_resolve? hresolve)
    rcases hvisits.standsIn_or_target with ⟨tokens, value, hinside, hwalk, rfl⟩ | ⟨htarget, -⟩
    · refine ⟨path ++ tokens, (Pointer.join_append _ _ _).symm, fun inner hinner => ?_⟩
      have hvalue := resolve?_of_keywordsAt? hinner
      rw [Json.resolve?_join, hresolve, Option.bind_some, hwalk] at hvalue
      obtain rfl := Option.some.inj hvalue
      have hstep := hholds.trans (.step hinside .self)
      rwa [List.append_nil] at hstep
    · exact htargets path keywords hholds child htarget

/-- **Nodes are subschemas** of a document without references, if they are objects at all. -/
lemma holds_of_mem_nodes
    (href : ∀ path keywords, document.Holds path keywords → Entries.contains "$ref" keywords = false)
    (h : pointer ∈ nodes document) : ∃ path, pointer = Pointer.join "" path
      ∧ ∀ keywords, keywordsAt? document pointer = some keywords → document.Holds path keywords := by
  refine stands_of_mem_nodes (fun path keywords hholds target htarget => ?_) h
  rw [localTarget?_eq_none (href path keywords hholds)] at htarget
  simp at htarget

end Outline

end SchemaAlgebra
