import SchemaAlgebra.Proofs.Coverage
import SchemaAlgebra.Proofs.Pruning

/-!
# Where pruning goes further than matching

Pruning and matching go down a schema and a value side by side, so what pruning would drop, matching
has complained about.  They part where pruning takes a step that matching does not
(`Validator.Oversteps`): to schemas under a keyword that the dialect does not have, or that a
reference makes void; and by a reference that matching reads otherwise, or that asks for nothing.

**`Validator.prune_eq_self_iff_of_accepts`** — pruning leaves an accepted value as it is just when
the schemas that only such steps lead to, and those whose closing matching does not heed, have room.

* `Validator.Clears` — what carries the proof: matching comes to a place, and finds nothing wrong
  there, within a budget.
* `Validator.clears_of_hands` — a step of pruning that is no overstep keeps that, at the cost of one
  step of the budget.
* At one value, a way that passes no place twice is shorter than the document has places, so the
  budget of a matcher lasts (`Validator.Starts.clears`).
-/

namespace SchemaAlgebra

namespace Json

namespace Governs

variable {keywords others : Entries Json} {way : List String} {value part : Json}

lemma depth_lt (h : Governs keywords way value part) : part.depth < value.depth := by
  cases h with
  | property _ _ hmember => exact Nat.lt_succ_of_le (depth_le_of_mem_members hmember)
  | pattern _ _ _ hmember => exact Nat.lt_succ_of_le (depth_le_of_mem_members hmember)
  | additional _ _ hmember => exact Nat.lt_succ_of_le (depth_le_of_mem_members hmember)
  | prefixItem _ _ hitem =>
    exact Nat.lt_succ_of_le (depth_le_of_mem_items (List.mem_of_getElem? hitem))
  | listedItem _ _ _ hitem =>
    exact Nat.lt_succ_of_le (depth_le_of_mem_items (List.mem_of_getElem? hitem))
  | item _ _ hitem => exact Nat.lt_succ_of_le (depth_le_of_mem_items (List.mem_of_getElem? hitem))
  | furtherItem _ _ _ _ hitem =>
    exact Nat.lt_succ_of_le (depth_le_of_mem_items (List.mem_of_getElem? hitem))

lemma wellFormed (h : Governs keywords way value part) (hvalue : value.WellFormed) :
    part.WellFormed := by
  cases h with
  | property _ _ hmember => exact wellFormed_of_mem_members hvalue.2 hmember
  | pattern _ _ _ hmember => exact wellFormed_of_mem_members hvalue.2 hmember
  | additional _ _ hmember => exact wellFormed_of_mem_members hvalue.2 hmember
  | prefixItem _ _ hitem => exact wellFormed_of_mem_items hvalue (List.mem_of_getElem? hitem)
  | listedItem _ _ _ hitem => exact wellFormed_of_mem_items hvalue (List.mem_of_getElem? hitem)
  | item _ _ hitem => exact wellFormed_of_mem_items hvalue (List.mem_of_getElem? hitem)
  | furtherItem _ _ _ _ hitem => exact wellFormed_of_mem_items hvalue (List.mem_of_getElem? hitem)

lemma exists_cons (h : Governs keywords way value part) : ∃ keyword rest, way = keyword :: rest := by
  cases h <;> exact ⟨_, _, rfl⟩

lemma covers_congr (h : Document.SameButDialect keywords others) (key : String) :
    Matcher.covers keywords key = Matcher.covers others key := by
  simp only [Matcher.covers, Matcher.patternsFor, Matcher.schemasUnder, h "properties" (by decide),
    h "patternProperties" (by decide)]

/-- What governs what does not depend on the announced dialect. -/
lemma congr (hsame : Document.SameButDialect keywords others) (h : Governs others way value part) :
    Governs keywords way value part := by
  have hlisted : Outline.isListed keywords "prefixItems" = Outline.isListed others "prefixItems" := by
    simp only [Outline.isListed, hsame "prefixItems" (by decide)]
  have hlength : Matcher.prefixLength keywords = Matcher.prefixLength others := by
    simp only [Matcher.prefixLength, hsame "prefixItems" (by decide)]
  cases h with
  | property hlookup hschema hmember =>
    exact .property ((hsame _ (by decide)).trans hlookup) hschema hmember
  | pattern hlookup hschema hoccurs hmember =>
    exact .pattern ((hsame _ (by decide)).trans hlookup) hschema hoccurs hmember
  | additional hlookup hcovers hmember =>
    exact .additional ((hsame _ (by decide)).trans hlookup)
      ((covers_congr hsame _).trans hcovers) hmember
  | prefixItem hlookup hindex hitem =>
    exact .prefixItem ((hsame _ (by decide)).trans hlookup) hindex hitem
  | listedItem hnone hlookup hindex hitem =>
    exact .listedItem (hlisted.trans hnone) ((hsame _ (by decide)).trans hlookup) hindex hitem
  | item hlookup hindex hitem =>
    exact .item ((hsame _ (by decide)).trans hlookup) (hlength ▸ hindex) hitem
  | furtherItem hnone hlookup hfurther hindex hitem =>
    exact .furtherItem (hlisted.trans hnone) ((hsame _ (by decide)).trans hlookup)
      ((hsame _ (by decide)).trans hfurther) hindex hitem

end Governs

end Json

/-! ## One step -/

namespace Matcher

variable {m : Matcher} {steps : ℕ} {scope : Scope} {keywords : Entries Json} {keyword : String}
  {value part : Json} {way : List String}

/-- The keywords whose schemas both matching and pruning apply, whatever stands beside them. -/
def appliedByBoth : List String :=
  ["properties", "patternProperties", "additionalProperties", "prefixItems", "items", "allOf"]

lemma isApplied_of_heeds {draft : Draft} (h : heeds draft keywords keyword = true)
    (hkeyword : keyword ∈ appliedByBoth
      ∨ keyword = "additionalItems" ∧ Outline.isListed keywords "items" = true) :
    isApplied draft keywords keyword = true := by
  simp only [heeds, Bool.and_eq_true] at h
  simp only [appliedByBoth, List.mem_cons, List.not_mem_nil, or_false] at hkeyword
  rcases hkeyword with (rfl | rfl | rfl | rfl | rfl | rfl) | ⟨rfl, hlisted⟩ <;>
    simp_all [isApplied]

lemma mem_applied_of_map {draft : Draft} {schemas : Entries Json} {name : String} {schema : Json}
    (hkeyword : keyword ∈ ["properties", "patternProperties"])
    (hlookup : Entries.lookup keyword keywords = some (.object schemas))
    (hschema : (name, schema) ∈ schemas) (hheeds : heeds draft keywords keyword = true) :
    ([keyword, name], schema) ∈ applied draft keywords := by
  refine List.mem_filter.2 ⟨?_, ?_⟩
  · refine List.mem_append_left _ (List.mem_append_left _ (List.mem_flatMap.2 ⟨keyword, ?_, ?_⟩))
    · exact (by decide : ["properties", "patternProperties"] ⊆ Json.mapKeywords) hkeyword
    · simp only [hlookup]
      exact List.mem_map.2 ⟨(name, schema), hschema, rfl⟩
  · exact isApplied_of_heeds hheeds
      (Or.inl ((by decide : ["properties", "patternProperties"] ⊆ appliedByBoth) hkeyword))

lemma mem_applied_of_list {draft : Draft} {schemas : List Json} {index : ℕ} {schema : Json}
    (hkeyword : keyword ∈ ["allOf", "prefixItems", "items"])
    (hlookup : Entries.lookup keyword keywords = some (.array schemas))
    (hschema : schemas[index]? = some schema) (hheeds : heeds draft keywords keyword = true) :
    ([keyword, Pointer.indexToken index], schema) ∈ applied draft keywords := by
  refine List.mem_filter.2 ⟨?_, ?_⟩
  · refine List.mem_append_left _ (List.mem_append_right _ (List.mem_flatMap.2 ⟨keyword, ?_, ?_⟩))
    · exact (by decide : ["allOf", "prefixItems", "items"] ⊆ Json.listKeywords) hkeyword
    · simp only [hlookup]
      exact List.mem_map.2 ⟨(schema, index), List.mk_mem_zipIdx_iff_getElem?.2 hschema, rfl⟩
  · exact isApplied_of_heeds hheeds
      (Or.inl ((by decide : ["allOf", "prefixItems", "items"] ⊆ appliedByBoth) hkeyword))

lemma mem_applied_of_single {draft : Draft} {inner : Entries Json}
    (hlookup : Entries.lookup keyword keywords = some (.object inner))
    (hheeds : heeds draft keywords keyword = true)
    (hkeyword : keyword ∈ ["additionalProperties", "items"]
      ∨ keyword = "additionalItems" ∧ Outline.isListed keywords "items" = true) :
    ([keyword], .object inner) ∈ applied draft keywords := by
  refine List.mem_filter.2 ⟨?_, ?_⟩
  · refine List.mem_append_right _ (List.mem_flatMap.2 ⟨keyword, ?_, ?_⟩)
    · rcases hkeyword with hkeyword | ⟨rfl, -⟩
      · exact (by decide : ["additionalProperties", "items"] ⊆ Json.singleKeywords) hkeyword
      · decide
    · simp only [hlookup]
      exact List.mem_singleton_self _
  · refine isApplied_of_heeds hheeds (hkeyword.imp_left fun hkeyword => ?_)
    exact (by decide : ["additionalProperties", "items"] ⊆ appliedByBoth) hkeyword

/-- A schema that finds nothing wrong with a value has what governs a part of it find nothing wrong
with that part. -/
lemma passes_of_governs (hkeywords : (Json.object keywords).WellFormed) (hvalue : value.WellFormed)
    (h : m.Passes (steps + 1) scope (.object keywords) value)
    (hgoverns : Json.Governs keywords (keyword :: way) value part)
    (hheeds : heeds (scope.enter keywords).draft keywords keyword = true) :
    ∃ schema, (keyword :: way, schema) ∈ applied (scope.enter keywords).draft keywords
      ∧ m.Passes steps (scope.enter keywords) schema part := by
  cases hgoverns with
  | @property _ _ schema _ _ hlookup hschema hmember =>
    have hschemas := Json.wellFormed_of_mem_members hkeywords.2 (Entries.mem_of_lookup hlookup)
    exact ⟨schema, mem_applied_of_map (by simp) hlookup hschema hheeds,
      passes_of_properties h hheeds hlookup (Entries.lookup_of_mem hschemas.1 hschema)
        (Entries.lookup_of_mem hvalue.1 hmember)⟩
  | @pattern _ _ schema _ _ _ hlookup hschema hoccurs hmember =>
    exact ⟨schema, mem_applied_of_map (by simp) hlookup hschema hheeds,
      passes_of_patternProperties h hheeds hlookup hschema hoccurs hmember⟩
  | additional hlookup hcovers hmember =>
    exact ⟨_, mem_applied_of_single hlookup hheeds (by simp),
      passes_of_additionalProperties h hheeds hlookup hcovers hmember⟩
  | prefixItem hlookup hindex hitem =>
    have hschema := List.getElem?_eq_getElem hindex
    exact ⟨_, mem_applied_of_list (by simp) hlookup hschema hheeds,
      passes_of_prefixItems h hheeds hlookup hschema hitem⟩
  | listedItem _ hlookup hindex hitem =>
    have hschema := List.getElem?_eq_getElem hindex
    exact ⟨_, mem_applied_of_list (by simp) hlookup hschema hheeds,
      passes_of_listedItems h hheeds hlookup hschema hitem⟩
  | item hlookup hindex hitem =>
    exact ⟨_, mem_applied_of_single hlookup hheeds (by simp),
      passes_of_items h hheeds hlookup hindex hitem⟩
  | furtherItem _ hlist hlookup hindex hitem =>
    exact ⟨_, mem_applied_of_single hlookup hheeds (Or.inr ⟨rfl, isListed_of_lookup hlist⟩),
      passes_of_additionalItems h hheeds hlookup hlist hindex hitem⟩

end Matcher

/-! ## Steps that matching does not make -/

namespace Validator

/-- **Oversteps.**  Steps of pruning that matching does not make. -/
inductive Oversteps (document : Document) : List String × Json → List String × Json → Prop
  /-- To what governs a part of the value by a keyword that is not heeded. -/
  | unheeded {location keywords keyword way value part} : document.Evaluates location →
      location.value = .object keywords → Json.Governs keywords (keyword :: way) value part →
      Matcher.heeds location.inner.draft keywords keyword = false →
      Oversteps document (location.path, value) (location.path ++ keyword :: way, part)
  /-- To a schema of `allOf` that is not heeded. -/
  | void {location keywords index value} : document.Evaluates location →
      location.value = .object keywords →
      Matcher.heeds location.inner.draft keywords "allOf" = false →
      Oversteps document (location.path, value)
        (location.path ++ ["allOf", Pointer.indexToken index], value)
  /-- By a reference that does not name what its pointer leads to, or to a schema that makes the very
  same reference. -/
  | misread {location keywords fragment path value} : document.Evaluates location →
      location.value = .object keywords → Json.localTarget? keywords = some fragment →
      (∀ target, document.resolve? location.inner ("#" ++ fragment) = some target →
        target.path = path →
        (target.value.members?.bind Draft.reference?) = some ("#" ++ fragment)) →
      Oversteps document (location.path, value) (path, value)

/-- Pruning comes to a place and a value by an overstep, at once or further on. -/
def Strays (validator : Validator) (value : Json) (state : List String × Json) : Prop :=
  ∃ a b, Relation.ReflTransGen (Json.Hands validator.document) ([], value) a
    ∧ Json.Hands validator.document a b ∧ Oversteps validator.matcher.document a b
    ∧ Relation.ReflTransGen (Json.Hands validator.document) b state

/-- Matching does not heed the closing of the schema at a place. -/
def LeavesOpen (document : Document) (path : List String) : Prop :=
  ∃ location keywords, document.Evaluates location ∧ location.path = path
    ∧ location.value = .object keywords
    ∧ Matcher.heeds location.inner.draft keywords "additionalProperties" = false

/-- **Pruning goes further than matching**: it comes to a place and a value by an overstep, or it
comes to a place where matching does not heed the closing. -/
def Overreaches (validator : Validator) (value : Json) (path : List String) (inner : Json) : Prop :=
  validator.Strays value (path, inner)
    ∨ Relation.ReflTransGen (Json.Hands validator.document) ([], value) (path, inner)
      ∧ LeavesOpen validator.matcher.document path

/-- Matching comes to a place, and finds nothing wrong with a value there, within a budget. -/
def Clears (validator : Validator) (steps : ℕ) (path : List String) (value : Json) : Prop :=
  ∃ location, validator.matcher.document.Evaluates location ∧ location.path = path
    ∧ location.Sound validator.matcher.document.root
    ∧ validator.matcher.Passes steps location.scope location.value value

variable {schema : Fragment} {options : Option Options} {validator : Validator} {value part : Json}
  {path target : List String} {steps : ℕ}

lemma document_eq (h : compile schema options = .ok validator) :
    validator.document = schema.json ∧ ∃ draft, validator.matcher.document
      = Document.ofJson draft schema.json := by
  obtain ⟨⟨draft, hdocument⟩, _, _, hplan⟩ := documents h
  exact ⟨(Plan.compile_ok hplan).1, draft, hdocument⟩

/-- What matching reads at a place, next to what pruning reads there. -/
lemma Clears.exists_keywords (h : compile schema options = .ok validator)
    (hclears : validator.Clears steps path value) {others : Entries Json}
    (hwalk : validator.document.walk? path = some (.object others)) :
    ∃ location keywords, validator.matcher.document.Evaluates location ∧ location.path = path
      ∧ location.Sound validator.matcher.document.root ∧ location.value = .object keywords
      ∧ Document.SameButDialect keywords others
      ∧ validator.matcher.Passes steps location.scope (.object keywords) value := by
  obtain ⟨location, hlocation, hpath, hsound, hpasses⟩ := hclears
  obtain ⟨hjson, draft, hdocument⟩ := document_eq h
  have hkept := hsound
  rw [Location.Sound, hdocument, Document.root_ofJson, hpath] at hkept
  rw [hjson] at hwalk
  obtain ⟨keywords, hkeywords, hsame⟩ := Document.exists_kept_of_walk? hkept hwalk
  exact ⟨location, keywords, hlocation, hpath, hsound, hkeywords, hsame, hkeywords ▸ hpasses⟩

lemma wellFormed_of_sound (h : compile schema options = .ok validator)
    (hwf : schema.json.WellFormed) {location : Location}
    (hsound : location.Sound validator.matcher.document.root) : location.value.WellFormed := by
  obtain ⟨-, draft, hdocument⟩ := document_eq h
  rw [Location.Sound, hdocument, Document.root_ofJson] at hsound
  exact Json.wellFormed_of_walk? (Document.wellFormed_kept hwf) hsound

/-- **A step of pruning** that is no overstep is one of matching. -/
lemma clears_of_hands (h : compile schema options = .ok validator) (hwf : schema.json.WellFormed)
    (hvalue : value.WellFormed) (hclears : validator.Clears (steps + 1) path value)
    (hstep : Json.Hands validator.document (path, value) (target, part))
    (hover : ¬ Oversteps validator.matcher.document (path, value) (target, part)) :
    validator.Clears steps target part := by
  cases hstep with
  | part hwalk hgoverns =>
    obtain ⟨location, keywords, hlocation, rfl, hsound, hkeywords, hsame, hpasses⟩ :=
      hclears.exists_keywords h hwalk
    have hgoverns := hgoverns.congr hsame
    obtain ⟨keyword, way, rfl⟩ := hgoverns.exists_cons
    have hinner : location.inner = location.scope.enter keywords := by
      rw [Location.inner, hkeywords]
    have hheeds : Matcher.heeds (location.scope.enter keywords).draft keywords keyword = true := by
      rw [← hinner]
      -- pruning also goes by keywords that matching does not heed; such a step is an overstep
      by_contra hnot
      exact hover (.unheeded hlocation hkeywords hgoverns (by simpa using hnot))
    obtain ⟨found, happlied, hfound⟩ := Matcher.passes_of_governs
      (hkeywords ▸ wellFormed_of_sound h hwf hsound) hvalue hpasses hgoverns hheeds
    have hcontains : validator.matcher.document.Applies location
        ⟨location.inner, location.path ++ keyword :: way, found⟩ :=
      Or.inl (.intro hkeywords (hinner ▸ happlied))
    exact ⟨_, hlocation.tail hcontains, rfl, sound_of_applies h hwf hsound hcontains,
      hinner ▸ hfound⟩
  | same hjoins =>
    cases hjoins with
    | @allOf others schemas index hwalk hlookup hindex =>
      obtain ⟨location, keywords, hlocation, rfl, hsound, hkeywords, hsame, hpasses⟩ :=
        hclears.exists_keywords h hwalk
      have hinner : location.inner = location.scope.enter keywords := by
        rw [Location.inner, hkeywords]
      have hheeds : Matcher.heeds (location.scope.enter keywords).draft keywords "allOf" = true := by
        rw [← hinner]
        by_contra hnot
        exact hover (.void hlocation hkeywords (by simpa using hnot))
      have hlookup := (hsame "allOf" (by decide)).trans hlookup
      have hschema := List.getElem?_eq_getElem hindex
      have hcontains : validator.matcher.document.Applies location
          ⟨location.inner, location.path ++ ["allOf", Pointer.indexToken index], schemas[index]⟩ :=
        Or.inl (.intro hkeywords
          (hinner ▸ Matcher.mem_applied_of_list (by simp) hlookup hschema hheeds))
      exact ⟨_, hlocation.tail hcontains, rfl, sound_of_applies h hwf hsound hcontains,
        hinner ▸ Matcher.passes_of_allOf hpasses hheeds hlookup hschema⟩
    | @reference others fragment _ hwalk hfragment _ _ =>
      obtain ⟨location, keywords, hlocation, rfl, hsound, hkeywords, hsame, hpasses⟩ :=
        hclears.exists_keywords h hwalk
      have hinner : location.inner = location.scope.enter keywords := by
        rw [Location.inner, hkeywords]
      have hfragment : Json.localTarget? keywords = some fragment := by
        rw [← hfragment, Json.localTarget?, Json.localTarget?, hsame "$ref" (by decide)]
      -- were no target of the reference cleared, pruning would have misread it
      by_contra hnot
      refine hover (.misread hlocation hkeywords hfragment fun found hresolve hpath => ?_)
      by_contra hother
      have hrefers : validator.matcher.document.Applies location found :=
        Or.inr (.intro hkeywords hfragment hresolve)
      refine hnot ⟨found, hlocation.tail hrefers, hpath, sound_of_applies h hwf hsound hrefers, ?_⟩
      exact Matcher.passes_of_reference hpasses (Outline.localTarget?_eq_some.1 hfragment)
        (hinner ▸ hresolve) hother

/-! ## The budget -/

lemma Strays.tail {a b : List String × Json} (h : validator.Strays value a)
    (hstep : Relation.ReflTransGen (Json.Hands validator.document) a b) :
    validator.Strays value b := by
  obtain ⟨c, d, hc, hcd, hover, hd⟩ := h
  exact ⟨c, d, hc, hcd, hover, hd.trans hstep⟩

lemma wellFormed_of_hands {state : List String × Json} (hvalue : value.WellFormed)
    (h : Relation.ReflTransGen (Json.Hands validator.document) ([], value) state) :
    state.2.WellFormed := by
  induction h with
  | refl => exact hvalue
  | tail _ hstep ih =>
    cases hstep with
    | same => exact ih
    | part _ hgoverns => exact hgoverns.wellFormed ih

/-- A step with the same value that stays in the document of the matcher. -/
def JoinsKept (validator : Validator) (path target : List String) : Prop :=
  validator.document.Joins path target ∧ target ∈ validator.matcher.document.root.paths

/-- A short way at one value costs as many steps of the budget as it has. -/
lemma clears_of_steps (h : compile schema options = .ok validator) (hwf : schema.json.WellFormed)
    (hvalue : value.WellFormed) {state : List String × Json} (hstays : ¬ validator.Strays value state)
    {inner : Json} {start : List String} {budget : ℕ}
    (hstart : Relation.ReflTransGen (Json.Hands validator.document) ([], value) (start, inner))
    (hclears : validator.Clears budget start inner) {n : ℕ}
    (hsteps : Graph.Steps validator.JoinsKept n start path)
    (hrest : Relation.ReflTransGen (Json.Hands validator.document) (path, inner) state)
    (hbudget : n ≤ budget) :
    Relation.ReflTransGen (Json.Hands validator.document) ([], value) (path, inner)
      ∧ validator.Clears (budget - n) path inner := by
  induction hsteps with
  | refl => exact ⟨hstart, hclears⟩
  | @tail n _ between target _ hlast ih =>
    have hstep : Json.Hands validator.document (between, inner) (target, inner) := .same hlast.1
    obtain ⟨hbetween, hcleared⟩ := ih hstart hclears (hrest.head hstep) (by omega)
    refine ⟨hbetween.tail hstep, ?_⟩
    obtain ⟨rest, hrestBudget⟩ : ∃ rest, budget - n = rest + 1 := ⟨budget - (n + 1), by omega⟩
    rw [hrestBudget] at hcleared
    have hpassed := clears_of_hands h hwf (wellFormed_of_hands hvalue hbetween) hcleared hstep
      fun hover => hstays ⟨_, _, hbetween, hstep, hover, hrest⟩
    rwa [show budget - (n + 1) = rest by omega]

/-- Pruning comes to a state by a way at one value, from a place that matching comes to with a budget
for every place of the document and every level of the value. -/
def Starts (validator : Validator) (value : Json) (state : List String × Json) : Prop :=
  ∃ start budget, Relation.ReflTransGen (Json.Hands validator.document) ([], value) (start, state.2)
    ∧ (validator.matcher.document.root.positions + 1) * (state.2.depth + 1) ≤ budget
    ∧ validator.Clears budget start state.2
    ∧ Relation.ReflTransGen validator.JoinsKept start state.1

lemma Clears.mem_paths (h : validator.Clears steps path value) :
    path ∈ validator.matcher.document.root.paths := by
  obtain ⟨location, -, rfl, hsound, -⟩ := h
  exact Json.mem_paths_of_walk? hsound

/-- The way at one value may be a short one, so that the budget for a level is left. -/
lemma Starts.clears (h : compile schema options = .ok validator) (hwf : schema.json.WellFormed)
    (hvalue : value.WellFormed) {state : List String × Json}
    (hstays : ¬ validator.Strays value state) (hstarts : validator.Starts value state) :
    ∃ budget, (validator.matcher.document.root.positions + 1) * state.2.depth < budget
      ∧ validator.Clears budget state.1 state.2 := by
  obtain ⟨start, budget, hstart, hbudget, hclears, hway⟩ := hstarts
  obtain ⟨n, hn, hsteps⟩ := Graph.exists_steps_lt hclears.mem_paths (fun _ _ hjoins => hjoins.2) hway
  rw [Json.length_paths] at hn
  rw [Nat.mul_succ] at hbudget
  refine ⟨budget - n, by omega, ?_⟩
  exact (clears_of_steps h hwf hvalue hstays hstart hclears hsteps Relation.ReflTransGen.refl
    (by omega)).2

/-- **The budget lasts** wherever pruning comes to without overstepping. -/
lemma starts_of_not_strays (h : compile schema options = .ok validator)
    (hwf : schema.json.WellFormed) (hvalue : value.WellFormed)
    (haccepts : validator.matcher.accepts value = true) {state : List String × Json}
    (hhands : Relation.ReflTransGen (Json.Hands validator.document) ([], value) state)
    (hstays : ¬ validator.Strays value state) : validator.Starts value state := by
  induction hhands with
  | refl =>
    refine ⟨[], validator.matcher.budget value, Relation.ReflTransGen.refl, ?_, ?_,
      Relation.ReflTransGen.refl⟩
    · exact Nat.mul_le_mul_left _ (Nat.le_succ _)
    · exact ⟨_, Relation.ReflTransGen.refl, rfl, Document.rootLocation_sound,
        List.isEmpty_iff.1 haccepts⟩
  | @tail before after hbefore hstep ih =>
    have hstays' : ¬ validator.Strays value before := fun hstrays =>
      hstays (hstrays.tail (Relation.ReflTransGen.single hstep))
    have hstarts := ih hstays'
    obtain ⟨budget, hbudget, hclears⟩ := hstarts.clears h hwf hvalue hstays'
    obtain ⟨rest, rfl⟩ := Nat.exists_eq_succ_of_ne_zero (Nat.ne_zero_of_lt hbudget)
    have hpassed := clears_of_hands h hwf (wellFormed_of_hands hvalue hbefore) hclears hstep
      fun hover => hstays ⟨_, _, hbefore, hstep, hover, Relation.ReflTransGen.refl⟩
    cases hstep with
    | same hjoins =>
      obtain ⟨start, budget, hstart, hbudget, hclears, hway⟩ := hstarts
      exact ⟨start, budget, hstart, hbudget, hclears, hway.tail ⟨hjoins, hpassed.mem_paths⟩⟩
    | part hwalk hgoverns =>
      refine ⟨_, rest, hbefore.tail (.part hwalk hgoverns), ?_, hpassed, Relation.ReflTransGen.refl⟩
      exact Nat.le_trans (Nat.mul_le_mul_left _ hgoverns.depth_lt) (Nat.le_of_lt_succ hbudget)

/-! ## What pruning drops of accepted values -/

/-- Where matching finds nothing wrong, and heeds the closing, there is room. -/
lemma Clears.hasRoom (h : compile schema options = .ok validator)
    (hclears : validator.Clears (steps + 1) path value)
    (hheeds : ¬ LeavesOpen validator.matcher.document path) :
    validator.document.HasRoom path value := by
  rintro others members hwalk rfl hlookup ⟨key, member⟩ hmember
  obtain ⟨location, keywords, hlocation, hpath, -, hkeywords, hsame, hpasses⟩ :=
    hclears.exists_keywords h hwalk
  rw [← Json.Governs.covers_congr hsame]
  refine Matcher.covers_of_closed hpasses ?_ ((hsame _ (by decide)).trans hlookup) hmember
  by_contra hnot
  refine hheeds ⟨location, keywords, hlocation, hpath, hkeywords, ?_⟩
  rw [Location.inner, hkeywords]
  simpa using hnot

/-- **Pruning accepted values.**  Pruning leaves an accepted value as it is just when, wherever it
goes further than matching, the schemas have room for what it comes there with. -/
theorem prune_eq_self_iff_of_accepts (h : compile schema options = .ok validator)
    (hwf : schema.json.WellFormed) (hvalue : value.WellFormed)
    (haccepts : validator.matcher.accepts value = true) :
    validator.plan.prune value = value
      ↔ ∀ path inner, validator.Overreaches value path inner →
        validator.document.HasRoom path inner := by
  obtain ⟨_, _, -, hplan⟩ := compile_ok h
  rw [Plan.prune_eq_self_iff hplan, ← (document_eq h).1]
  constructor
  · rintro hroom path inner (⟨a, b, ha, hab, -, hb⟩ | ⟨hhands, -⟩)
    · exact hroom path inner ((ha.tail hab).trans hb)
    · exact hroom path inner hhands
  · intro hroom path inner hhands
    by_cases hover : validator.Overreaches value path inner
    · exact hroom path inner hover
    · have hstays : ¬ validator.Strays value (path, inner) := fun hstrays => hover (Or.inl hstrays)
      obtain ⟨budget, hbudget, hclears⟩ :=
        (starts_of_not_strays h hwf hvalue haccepts hhands hstays).clears h hwf hvalue hstays
      obtain ⟨rest, rfl⟩ := Nat.exists_eq_succ_of_ne_zero (Nat.ne_zero_of_lt hbudget)
      exact hclears.hasRoom h fun hopen => hover (Or.inr ⟨hhands, hopen⟩)

/-! ## A member that is dropped -/

/-- A schema that is closed beside a reference, which makes the closing void. -/
def besideSchema : Fragment where
  keywords :=
    [("definitions", .object [("r", .object [("type", .string "object")])]),
      ("properties", .object [("p", .object [("$ref", .string "#/definitions/r"),
        ("additionalProperties", .bool false)])])]

/-- A value with a member that the schema does not declare. -/
def besideValue : Json :=
  .object [("p", .object [("x", .int 1)])]

lemma exists_besideValidator : ∃ validator, compile besideSchema none = .ok validator
    ∧ validator.matcher.accepts besideValue = true
    ∧ validator.plan.prune besideValue ≠ besideValue := by
  have hany : (compile besideSchema none).toOption.any (fun validator =>
      validator.matcher.accepts besideValue
        && decide (validator.plan.prune besideValue ≠ besideValue)) = true := by
    decide +kernel
  cases hcompile : compile besideSchema none with
  | error e => simp [hcompile, Except.toOption] at hany
  | ok validator =>
    simp only [hcompile, Except.toOption, Option.any_some, Bool.and_eq_true,
      decide_eq_true_eq] at hany
    exact ⟨validator, rfl, hany.1, hany.2⟩

lemma besideSchema_wellFormed : besideSchema.json.WellFormed := by
  simp only [besideSchema, Fragment.json, Json.WellFormed, Json.MembersWellFormed,
    Entries.Sorted, and_true]
  decide

lemma besideValue_wellFormed : besideValue.WellFormed := by
  simp only [besideValue, Json.WellFormed, Json.MembersWellFormed, Entries.Sorted, and_true]
  decide

/-- The schema compiles, and pruning changes a value that matching accepts. -/
theorem besideSchema_drops_member :
    ∃ schema validator value, compile schema none = .ok validator ∧ schema.json.WellFormed
      ∧ value.WellFormed ∧ validator.matcher.accepts value = true
      ∧ validator.plan.prune value ≠ value := by
  obtain ⟨validator, hcompile, haccepts, hprune⟩ := exists_besideValidator
  exact ⟨besideSchema, validator, besideValue, hcompile, besideSchema_wellFormed,
    besideValue_wellFormed, haccepts, hprune⟩

/-- Pruning goes further than matching, to a place without room. -/
theorem besideSchema_overreaches :
    ∃ validator, compile besideSchema none = .ok validator ∧ besideSchema.json.WellFormed
      ∧ besideValue.WellFormed ∧ validator.matcher.accepts besideValue = true
      ∧ ∃ path inner, validator.Overreaches besideValue path inner
        ∧ ¬ validator.document.HasRoom path inner := by
  obtain ⟨validator, hcompile, haccepts, hprune⟩ := exists_besideValidator
  refine ⟨validator, hcompile, besideSchema_wellFormed, besideValue_wellFormed, haccepts, ?_⟩
  by_contra hnone
  refine hprune ((prune_eq_self_iff_of_accepts hcompile besideSchema_wellFormed
    besideValue_wellFormed haccepts).2 fun path inner hover => ?_)
  by_contra hroom
  exact hnone ⟨path, inner, hover, hroom⟩

end Validator

end SchemaAlgebra
