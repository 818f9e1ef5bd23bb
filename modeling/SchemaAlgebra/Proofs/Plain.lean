import Mathlib.Data.List.Find
import SchemaAlgebra.Proofs.Acceptance
import SchemaAlgebra.Proofs.Branches
import SchemaAlgebra.Proofs.Carried

/-!
# Schemas that stand for themselves

A schema is *plain* if no schema in it makes a reference or announces a dialect other than that of
combinators (`Json.Plain`); an identifier that it gives itself does no harm, as nothing is named by it.
What is wrong with a value is then a matter of the schema alone: not of the
document around it, nor of what other classes there are.

* `Matcher.Akin` — two matchers have the same settings, and the classes that a schema names have the
  same instances for both.
* `Matcher.judge_eq_of_refFree`, `Matcher.judge_eq_of_plain` — akin matchers find the same wrong, with
  steps enough for the depth of the schema.
* `Matcher.Confined.isSound_eq`, `Matcher.Confined.parts_eq` — and the check of a document has the same
  to say against the schema, and goes on to the same schemas.
-/

namespace SchemaAlgebra

namespace Json

/-! ## Plain schemas -/

/-- Whether a schema depends by a keyword on what is around it: by a reference, or by the announcement of
another dialect than that of combinators, which counts only where something is around. -/
def isBinding (entry : String × Json) : Bool :=
  entry.1 = "$ref"
    || entry.1 = "$schema" && (entry.2.string?.bind Draft.announced?).any fun draft => draft ≠ .draft7

/-- No schema in the value refers to another or announces another dialect. -/
def Plain (value : Json) : Prop :=
  ∀ path keywords, value.Holds path keywords → ∀ entry ∈ keywords, isBinding entry = false

variable {keywords : Entries Json} {keyword : String} {argument value : Json} {tokens : List String}

/-- What holds of every schema in a value can be checked. -/
lemma forall_holds_iff {P : Entries Json → Prop} :
    (∀ path keywords, value.Holds path keywords → P keywords) ↔ ∀ entry ∈ value.subschemas, P entry.2 := by
  constructor
  · rintro h ⟨pointer, keywords⟩ hentry
    obtain ⟨path, hholds, -⟩ := mem_subschemas.1 hentry
    exact h path keywords hholds
  · exact fun h path keywords hholds => h (_, keywords) (mem_subschemas.2 ⟨path, hholds, rfl⟩)

instance (value : Json) : Decidable value.Plain :=
  decidable_of_iff _ forall_holds_iff.symm

lemma Plain.lookup_reference (h : (Json.object keywords).Plain) :
    Entries.lookup "$ref" keywords = none := by
  refine Entries.lookup_eq_none_of_forall fun entry hentry heq => ?_
  simpa [isBinding, heq] using h [] keywords .self entry hentry

/-- What a plain schema announces is the dialect of combinators. -/
lemma Plain.announced (h : (Json.object keywords).Plain) {draft : Draft}
    (hdraft : ((Entries.lookup "$schema" keywords).bind string?).bind Draft.announced? = some draft) :
    draft = .draft7 := by
  rw [Option.bind_assoc] at hdraft
  obtain ⟨uri, hlookup, hannounced⟩ := Option.bind_eq_some_iff.1 hdraft
  simpa [isBinding, hannounced] using h [] keywords .self _ (Entries.mem_of_lookup hlookup)

lemma Plain.of_mem_inside (h : (Json.object keywords).Plain) (hmem : (tokens, value) ∈ inside keywords) :
    value.Plain :=
  fun _ _ hholds => h _ _ (.step hmem hholds)

lemma Plain.of_holds {path : List String} (h : value.Plain) (hholds : value.Holds path keywords) :
    (Json.object keywords).Plain :=
  fun _ _ hinner => h _ _ (hholds.trans hinner)

lemma plain_of_not_object (h : value.isObject = false) : value.Plain := by
  intro path keywords hholds
  cases hholds <;> simp [isObject] at h

/-- No schema in the value refers to another. -/
def RefFree (value : Json) : Prop :=
  ∀ path keywords, value.Holds path keywords → Entries.contains "$ref" keywords = false

instance (value : Json) : Decidable value.RefFree :=
  decidable_of_iff _ forall_holds_iff.symm

lemma Plain.refFree (h : value.Plain) : value.RefFree := by
  intro path keywords hholds
  rw [Entries.contains_eq_isSome, (h.of_holds hholds).lookup_reference]
  rfl

lemma RefFree.lookup (h : (Json.object keywords).RefFree) : Entries.lookup "$ref" keywords = none := by
  simpa [Entries.contains_eq_isSome] using h [] keywords .self

lemma RefFree.of_mem_inside (h : (Json.object keywords).RefFree)
    (hmem : (tokens, value) ∈ inside keywords) : value.RefFree :=
  fun _ _ hholds => h _ _ (.step hmem hholds)

end Json

namespace Matcher

variable {keywords : Entries Json} {keyword : String} {argument schema value : Json}

/-- A value stands directly inside a schema, beneath a keyword or one that the keyword speaks for. -/
def StandsUnder (keywords : Entries Json) (keyword : String) (value : Json) : Prop :=
  ∃ head rest, (head :: rest, value) ∈ Json.inside keywords
    ∧ (head = keyword ∨ (keyword, head) ∈ applyingOthers)

/-- A schema that a keyword gives stands beneath it, if it is an object. -/
lemma Gives.exists_mem_inside (h : Gives keywords schema keyword) (hobject : schema.isObject = true) :
    ∃ rest, (keyword :: rest, schema) ∈ Json.inside keywords := by
  cases h with
  | single hkeyword _ hlookup => exact ⟨_, Json.mem_inside_single hkeyword hlookup hobject⟩
  | listed hkeyword hlookup hmem =>
    obtain ⟨index, hindex⟩ := List.mem_iff_getElem?.1 hmem
    exact ⟨_, Json.mem_inside_listed hkeyword hlookup hindex⟩
  | named hkeyword hlookup hmem => exact ⟨_, Json.mem_inside_named hkeyword hlookup hmem⟩

/-- The schemas that a keyword applies stand directly inside the schema, those that are objects. -/
lemma standsUnder_of_applied (hlookup : Entries.lookup keyword keywords = some argument)
    (h : schema ∈ schemasApplied keywords keyword argument) (hobject : schema.isObject = true) :
    StandsUnder keywords keyword schema := by
  obtain ⟨head, hgives, hhead⟩ := exists_gives_of_mem_schemasApplied hlookup h
  obtain ⟨rest, hmem⟩ := hgives.exists_mem_inside hobject
  exact ⟨head, rest, hmem, hhead⟩

lemma exists_mem_inside_of_applied (hlookup : Entries.lookup keyword keywords = some argument)
    (h : schema ∈ schemasApplied keywords keyword argument) (hobject : schema.isObject = true) :
    ∃ tokens, (tokens, schema) ∈ Json.inside keywords := by
  obtain ⟨head, rest, hmem, -⟩ := standsUnder_of_applied hlookup h hobject
  exact ⟨_, hmem⟩

end Matcher

/-! ## Classes with the same instances -/

/-- Names stand for classes with the same instances in two registries, if for any. -/
def SameInstances (r r' : Registry) (names : List String) : Prop :=
  ∀ name ∈ names, (r.get? name).map Class.isInstance = (r'.get? name).map Class.isInstance

namespace SameInstances

variable {r r' : Registry} {names : List String}

lemma symm (h : SameInstances r r' names) : SameInstances r' r names :=
  fun name hname => (h name hname).symm

lemma contains_eq (h : SameInstances r r' names) {name : String} (hname : name ∈ names) :
    r.contains name = r'.contains name := by
  have hisSome : ∀ registry : Registry,
      registry.contains name = ((registry.get? name).map Class.isInstance).isSome := fun registry => by
    rw [Option.isSome_map]
    exact Entries.contains_eq_isSome name registry.classes.entries
  rw [hisSome, hisSome, h name hname]

lemma isInstanceOfAny_eq (h : SameInstances r r' names) (value : Json) :
    r.isInstanceOfAny names value = r'.isInstanceOfAny names value := by
  have hany : ∀ registry : Registry, registry.isInstanceOfAny names value
      = names.any fun name => ((registry.get? name).map Class.isInstance).any fun test => test value := by
    intro registry
    rw [Registry.isInstanceOfAny, List.any_filterMap]
    refine congrArg _ (funext fun name => ?_)
    cases registry.get? name <;> rfl
  rw [hany, hany]
  exact Bool.eq_iff_iff.2 (by
    rw [List.any_eq_true, List.any_eq_true]
    exact exists_congr fun name => and_congr_right fun hname => by rw [h name hname])

end SameInstances

section Assertions

variable {r r' : Registry} {extensions : List Extension} {keywords : Entries Json}
  {keyword : String} {argument : Json}

lemma namedClasses_of_lookup {names : List String}
    (hlookup : Entries.lookup "instanceOf" keywords = some argument)
    (hnames : namesOf? argument = some names) : namedClasses keywords = names := by
  simp only [namedClasses, hlookup, Option.bind_some, hnames, Option.getD_some]

/-- Only the keyword `instanceOf` demands instances, of the classes in its argument. -/
lemma names_of_read? {names : List String} (h : Assertion.read? r extensions keywords keyword argument
      = some (.ok (.instanceOf names))) : keyword = "instanceOf" ∧ namesOf? argument = some names := by
  unfold Assertion.read? at h
  split at h
  · rename_i hkeyword
    refine ⟨hkeyword, ?_⟩
    unfold Assertion.readInstanceOf at h
    cases hnames : namesOf? argument with
    | none => simp [hnames] at h
    | some others =>
      simp only [hnames, Option.some.injEq] at h
      split at h
      · simp at h
      · rw [Assertion.instanceOf.inj (Except.ok.inj h)]
  · split at h
    · unfold Assertion.readTransform at h
      split at h
      · split at h <;> simp at h
      · simp at h
    · obtain ⟨extension, -, h⟩ := Option.map_eq_some_iff.1 h
      cases extension with
      | typeOf => 
        simp only [Assertion.readTypeOf] at h
        split at h <;> simp at h
      | presence rule =>
        simp only [Assertion.readPresence] at h
        split at h
        · simp at h
        · simp at h
        · split at h <;> simp at h
        · simp at h

/-- Reading an argument takes a registry only for the names in it. -/
lemma read?_eq_of_sameInstances (h : SameInstances r r' (namedClasses keywords))
    (hlookup : Entries.lookup keyword keywords = some argument) :
    Assertion.read? r extensions keywords keyword argument
      = Assertion.read? r' extensions keywords keyword argument := by
  unfold Assertion.read?
  split
  · rename_i hkeyword
    subst hkeyword
    unfold Assertion.readInstanceOf
    cases hnames : namesOf? argument with
    | none => rfl
    | some names =>
      rw [namedClasses_of_lookup hlookup hnames] at h
      have hfind : (names.find? fun name => !r.contains name)
          = names.find? fun name => !r'.contains name :=
        List.find?_congr fun name hname => by rw [h.contains_eq hname]
      simp only [hfind]
  · rfl

/-- What an argument demands is met by the same values. -/
lemma holds_eq_of_sameInstances (h : SameInstances r r' (namedClasses keywords))
    (hlookup : Entries.lookup keyword keywords = some argument) {assertion : Assertion}
    (hread : Assertion.read? r extensions keywords keyword argument = some (.ok assertion))
    (value : Json) : assertion.holds r value = assertion.holds r' value := by
  cases assertion with
  | instanceOf names =>
    obtain ⟨rfl, hnames⟩ := names_of_read? hread
    rw [namedClasses_of_lookup hlookup hnames] at h
    exact h.isInstanceOfAny_eq value
  | transform => rfl
  | typeOf names => rfl
  | presence rule names => cases value <;> rfl

end Assertions

namespace Matcher

/-! ## Akin matchers -/

/-- Two matchers have the same settings, and the classes that a schema names have the same instances
for both. -/
structure Akin (m m' : Matcher) (schema : Json) : Prop where
  formats : m.enforcesFormats = m'.enforcesFormats
  extensions : m.extensions = m'.extensions
  classes : ∀ path keywords, schema.Holds path keywords →
    SameInstances m.registry m'.registry (namedClasses keywords)

variable {m m' : Matcher} {scope scope' : Scope} {keywords : Entries Json} {keyword : String}
  {argument schema value : Json}

lemma Akin.symm (h : m.Akin m' schema) : m'.Akin m schema :=
  ⟨h.formats.symm, h.extensions.symm, fun path keywords hholds => (h.classes path keywords hholds).symm⟩

lemma Akin.of_mem_inside {tokens : List String} (h : m.Akin m' (.object keywords))
    (hmem : (tokens, schema) ∈ Json.inside keywords) : m.Akin m' schema :=
  ⟨h.formats, h.extensions, fun _ _ hholds => h.classes _ _ (.step hmem hholds)⟩

lemma Akin.self (h : m.Akin m' (.object keywords)) :
    SameInstances m.registry m'.registry (namedClasses keywords) :=
  h.classes [] keywords .self

/-- A plain schema stays in the dialect of combinators. -/
lemma draft_enter_of_plain (hdraft : scope.draft = .draft7) (h : (Json.object keywords).Plain) :
    (scope.enter keywords).draft = .draft7 := by
  rw [Scope.enter]
  cases hannounced : ((Entries.lookup "$schema" keywords).bind Json.string?).bind Draft.announced? with
  | none => exact hdraft
  | some draft => exact h.announced hannounced

lemma draft_inner_of_plain (hdraft : scope.draft = .draft7) (h : schema.Plain) :
    (Place.inner (scope, schema)).draft = .draft7 := by
  cases schema with
  | object keywords => exact draft_enter_of_plain hdraft h
  | _ => exact hdraft

/-- What plain schemas share says nothing of the scope inside them. -/
lemma inner_eq_of_bare {a b : Place} (hbare : bare a.2 = bare b.2) (hscope : a.1 = b.1)
    (hdraft : a.1.draft = .draft7) (ha : a.2.Plain) (hb : b.2.Plain) : a.inner = b.inner := by
  obtain ⟨scope, schema⟩ := a
  obtain ⟨scope', schema'⟩ := b
  obtain rfl : scope = scope' := hscope
  by_cases hobject : schema.isObject = true
  · obtain ⟨keywords, rfl⟩ := exists_object_of_isObject hobject
    obtain ⟨others, rfl, hown⟩ := exists_object_of_bare hbare
    have hsame : (scope.enter keywords).draft = (scope.enter others).draft :=
      (draft_enter_of_plain hdraft ha).trans (draft_enter_of_plain hdraft hb).symm
    have hidentifier : ∀ draft : Draft, draft.identifier? keywords = draft.identifier? others := by
      intro draft
      rw [Draft.identifier?, Draft.identifier?, Draft.reference?, Draft.reference?,
        lookup_eq_of_own hown "$ref" (by decide), lookup_eq_of_own hown _ (by split <;> decide)]
    simp only [Scope.enter] at hsame
    simp only [Place.inner, Scope.enter, hsame, hidentifier]
  · obtain rfl : schema = schema' := eq_of_bare (by simpa using hobject) hbare
    rfl

lemma wellFormed_of_mem_inside {tokens : List String} (hwf : (Json.object keywords).WellFormed)
    (hmem : (tokens, schema) ∈ Json.inside keywords) : schema.WellFormed :=
  Json.wellFormed_of_walk? hwf (Json.walk?_of_mem_inside hwf hmem)

/-- A schema without a reference has no keyword that leads to one. -/
lemma lead_ne_reference {draft : Draft} {text : String} (h : (Json.object keywords).RefFree)
    (hlookup : Entries.lookup keyword keywords = some argument) :
    m.lead draft keywords (keyword, argument) ≠ .reference text := by
  intro hlead
  obtain ⟨rfl, -⟩ := Prod.mk.inj (eq_of_lead_reference hlead)
  rw [h.lookup] at hlookup
  simp at hlookup

lemma keywordViolations_eq_of_sameInstances {judge : Judge} {registry : Registry}
    (h : SameInstances m.registry registry (namedClasses keywords))
    (hlookup : Entries.lookup keyword keywords = some argument) :
    m.keywordViolations judge scope keywords keyword argument value
      = { m with registry := registry }.keywordViolations judge scope keywords keyword argument value := by
  unfold keywordViolations
  dsimp only
  rw [← read?_eq_of_sameInstances h hlookup]
  split
  · rename_i hread
    rw [holds_eq_of_sameInstances h hlookup hread]
  · rfl
  · rfl

/-- Which dialect is in force inside a schema depends on the scope around it by its dialect alone. -/
lemma inner_draft_eq (h : scope.draft = scope'.draft) (schema : Json) :
    (Place.inner (scope, schema)).draft = (Place.inner (scope', schema)).draft := by
  cases schema with
  | object keywords => simp only [Place.inner, Scope.enter, h]
  | _ => exact h

/-- **Schemas without references** find the same wrong for akin matchers, read in one dialect and
different only in what they share.  By induction on the steps: those schemas that a schema applies are
less deep. -/
lemma judge_eq_of_refFree {a b : Place} {steps steps' : ℕ} (hakin : m.Akin m' a.2)
    (href : a.2.RefFree) (hwf : a.2.WellFormed) (hbare : bare a.2 = bare b.2)
    (hdraft : a.2.isObject = true → a.inner.draft = b.inner.draft)
    (hsteps : a.2.depth < steps) (hsteps' : b.2.depth < steps') :
    m.judge steps a.1 a.2 value = m'.judge steps' b.1 b.2 value := by
  induction steps generalizing a b steps' value with
  | zero => exact absurd hsteps (Nat.not_lt_zero _)
  | succ steps ih =>
    obtain ⟨steps', rfl⟩ := Nat.exists_eq_succ_of_ne_zero (Nat.ne_zero_of_lt hsteps')
    obtain ⟨scope, schema⟩ := a
    obtain ⟨scope', schema'⟩ := b
    by_cases hobject : schema.isObject = true
    · obtain ⟨keywords, rfl⟩ := exists_object_of_isObject hobject
      obtain ⟨others, rfl, hown⟩ := exists_object_of_bare hbare
      have hdraft : (scope.enter keywords).draft = (scope'.enter others).draft := hdraft rfl
      change m.nodeViolations (m.judge steps) (scope.enter keywords) keywords value
        = m'.nodeViolations (m'.judge steps') (scope'.enter others) others value
      -- the keywords that are shared say nothing of a value, so only the own ones count
      rw [nodeViolations_eq_own, nodeViolations_eq_own, ← hdraft,
        ← own_effectiveKeywords_eq_of_own hown]
      refine List.flatMap_congr fun entry hentry => ?_
      obtain ⟨hentry, hshared⟩ := mem_own.1 hentry
      have hlookup := Entries.lookup_of_mem hwf.1 (mem_of_mem_effectiveKeywords hentry)
      rw [← (sameSiblings_of_own hown).keywordViolations_eq,
        keywordViolations_eq_of_sameInstances hakin.self hlookup]
      refine keywordViolations_congr ⟨hakin.formats, hakin.extensions, rfl⟩ hdraft hlookup ?_ ?_
      · exact fun text htext => absurd htext (lead_ne_reference href hlookup)
      · intro patterns schemas hschemas inner hinner further _
        rw [eq_of_lead_schemas hschemas] at hinner
        by_cases hinnerObject : inner.isObject = true
        · obtain ⟨tokens, hmem⟩ := exists_mem_inside_of_applied hlookup hinner hinnerObject
          obtain ⟨tokens', hmem'⟩ := exists_mem_inside_of_applied
            (lookup_eq_of_own hown _ hshared ▸ hlookup)
            ((sameSiblings_of_own hown).schemasApplied_eq ▸ hinner) hinnerObject
          exact ih (a := (_, inner)) (b := (_, inner)) (hakin.of_mem_inside hmem)
            (href.of_mem_inside hmem) (wellFormed_of_mem_inside hwf hmem) rfl
            (fun _ => inner_draft_eq hdraft inner)
            (Nat.lt_of_lt_of_le (Json.depth_lt_of_mem_inside hmem) (Nat.le_of_lt_succ hsteps))
            (Nat.lt_of_lt_of_le (Json.depth_lt_of_mem_inside hmem') (Nat.le_of_lt_succ hsteps'))
        -- schemas that are no objects need one step, which a schema with keywords leaves
        · obtain ⟨n, rfl⟩ := Nat.exists_eq_succ_of_ne_zero
            (Nat.ne_zero_of_lt (Nat.lt_of_lt_of_le (Nat.succ_pos _) (Nat.le_of_lt_succ hsteps)))
          obtain ⟨n', rfl⟩ := Nat.exists_eq_succ_of_ne_zero
            (Nat.ne_zero_of_lt (Nat.lt_of_lt_of_le (Nat.succ_pos _) (Nat.le_of_lt_succ hsteps')))
          exact judge_of_not_object (by simpa using hinnerObject)
    · obtain rfl : schema = schema' := eq_of_bare (by simpa using hobject) hbare
      exact judge_of_not_object (by simpa using hobject)

/-! ## The check of plain schemas -/

lemma lead_eq_of_akin {draft : Draft} (hakin : m.Akin m' (.object keywords))
    (hlookup : Entries.lookup keyword keywords = some argument) :
    m.lead draft keywords (keyword, argument) = m'.lead draft keywords (keyword, argument) := by
  unfold lead
  rw [hakin.extensions, read?_eq_of_sameInstances hakin.self hlookup]

lemma leads_eq_of_akin (hakin : m.Akin m' (.object keywords)) (hwf : (Json.object keywords).WellFormed) :
    m.leads (scope, .object keywords) = m'.leads (scope, .object keywords) := by
  refine List.map_congr_left fun entry hentry => ?_
  exact lead_eq_of_akin hakin (Entries.lookup_of_mem hwf.1 (mem_of_mem_effectiveKeywords hentry))

/-- A plain schema leads to no reference. -/
lemma texts_eq_nil (hplain : schema.Plain) (hwf : schema.WellFormed) : m.texts (scope, schema) = [] := by
  refine List.eq_nil_iff_forall_not_mem.2 fun text htext => ?_
  obtain ⟨keywords, hkeywords⟩ := exists_object_of_mem_leads (mem_texts.1 htext)
  obtain rfl : schema = .object keywords := hkeywords
  have hreference := reference?_of_mem_texts hwf.1 htext
  rw [Draft.reference?, hplain.lookup_reference] at hreference
  simp at hreference

/-- The schema at a place is plain and in the dialect of combinators, and akin matchers agree about it. -/
structure Confined (m m' : Matcher) (place : Place) : Prop where
  akin : m.Akin m' place.2
  plain : place.2.Plain
  wellFormed : place.2.WellFormed
  draft : place.1.draft = .draft7

variable {place next : Place}

lemma Confined.symm (h : Confined m m' place) : Confined m' m place :=
  ⟨h.akin.symm, h.plain, h.wellFormed, h.draft⟩

lemma Confined.parts_eq (h : Confined m m' place) : m.parts place = m'.parts place := by
  obtain ⟨scope, schema⟩ := place
  by_cases hobject : schema.isObject = true
  · obtain ⟨keywords, rfl⟩ := exists_object_of_isObject hobject
    rw [parts, parts, leads_eq_of_akin h.akin h.wellFormed]
  · have hobject : schema.isObject = false := by simpa using hobject
    rw [parts, parts, leads_of_not_object hobject, leads_of_not_object hobject]

lemma Confined.successors_eq (h : Confined m m' place) : m.successors place = m.parts place := by
  rw [successors, targets, texts_eq_nil h.plain h.wellFormed, List.flatMap_nil, List.append_nil]

/-- A schema that a plain one applies is plain too, and akin matchers agree about it. -/
lemma Confined.part (h : Confined m m' place) (hnext : next ∈ m.parts place) : Confined m m' next := by
  obtain ⟨patterns, schemas, hlead, hschema, hscope⟩ := mem_parts.1 hnext
  obtain ⟨keywords, hkeywords⟩ := exists_object_of_mem_leads hlead
  obtain ⟨scope, schema⟩ := place
  obtain rfl : schema = .object keywords := hkeywords
  have hdraft : next.1.draft = .draft7 := by
    rw [hscope]
    exact draft_enter_of_plain h.draft h.plain
  obtain ⟨entry, hentry, hlead⟩ := mem_leads_object.1 hlead
  rw [eq_of_lead_schemas hlead] at hschema
  have hlookup := Entries.lookup_of_mem h.wellFormed.1 (mem_of_mem_effectiveKeywords hentry)
  by_cases hobject : next.2.isObject = true
  · obtain ⟨tokens, hmem⟩ := exists_mem_inside_of_applied hlookup hschema hobject
    exact ⟨h.akin.of_mem_inside hmem, h.plain.of_mem_inside hmem,
      wellFormed_of_mem_inside h.wellFormed hmem, hdraft⟩
  · have hobject : next.2.isObject = false := by simpa using hobject
    have hnothing : ∀ path keywords, ¬next.2.Holds path keywords := by
      intro path keywords hholds
      generalize next.2 = value at hholds hobject
      cases hholds <;> simp [Json.isObject] at hobject
    have hwf : next.2.WellFormed := by
      obtain ⟨path, hpath⟩ := (argues_of_mem_schemasApplied hlookup hschema).exists_walk? h.wellFormed
      exact Json.wellFormed_of_walk? h.wellFormed hpath
    exact ⟨⟨h.akin.formats, h.akin.extensions, fun path keywords hholds =>
      (hnothing path keywords hholds).elim⟩, Json.plain_of_not_object hobject, hwf, hdraft⟩

lemma Confined.of_leads (h : Confined m m' place) (hleads : Graph.Leads m.successors place next) :
    Confined m m' next ∧ Graph.Leads m'.successors place next := by
  induction hleads with
  | refl => exact ⟨h, Relation.ReflTransGen.refl⟩
  | @tail before after _ hstep ih =>
    obtain ⟨hbefore, hleads⟩ := ih
    have hstep : after ∈ m.successors before := hstep
    rw [hbefore.successors_eq] at hstep
    refine ⟨hbefore.part hstep, hleads.tail ?_⟩
    rw [hbefore.symm.successors_eq, ← hbefore.parts_eq]
    exact hstep

/-- **The check** has the same to say against a plain schema, whichever of akin matchers it is of. -/
lemma Confined.isSound_eq (h : Confined m m' place) : m.isSound place = m'.isSound place := by
  obtain ⟨scope, schema⟩ := place
  by_cases hobject : schema.isObject = true
  · obtain ⟨keywords, rfl⟩ := exists_object_of_isObject hobject
    have hleads : m.leads (scope, .object keywords) = m'.leads (scope, .object keywords) :=
      leads_eq_of_akin h.akin h.wellFormed
    rw [isSound, isSound, ← hleads]
    refine congrArg _ (Bool.eq_iff_iff.2 ?_)
    rw [List.all_eq_true, List.all_eq_true]
    refine forall_congr' fun lead => imp_congr_right fun hlead => ?_
    cases lead with
    | reference text =>
      have htext := mem_texts.2 hlead
      rw [texts_eq_nil h.plain h.wellFormed] at htext
      exact absurd htext List.not_mem_nil
    | _ => rfl
  · have hobject : schema.isObject = false := by simpa using hobject
    rw [isSound, isSound, leads_of_not_object hobject, leads_of_not_object hobject]
    rfl

/-- What matching can come to is sound for akin matchers alike. -/
lemma Confined.sound_of_leads (h : Confined m m' place)
    (hsound : ∀ next, Graph.Leads m.successors place next → m.isSound next = true)
    (hleads : Graph.Leads m'.successors place next) : m'.isSound next = true := by
  obtain ⟨hnext, hleads⟩ := h.symm.of_leads hleads
  rw [hnext.isSound_eq]
  exact hsound next hleads

/-- Definitions that nothing refers to do not matter to the check. -/
lemma Confined.sound_of_bare {a b : Place} (ha : Confined m m a) (hb : Confined m m b)
    (hbare : bare a.2 = bare b.2) (hscope : a.1 = b.1)
    (hsound : ∀ place, Graph.Leads m.successors a place → m.isSound place = true)
    (hplace : Graph.Leads m.successors b place) : m.isSound place = true := by
  have hinner : a.inner = b.inner := inner_eq_of_bare hbare hscope ha.draft ha.plain hb.plain
  rcases hplace.cases_head with rfl | ⟨next, hnext, hleads⟩
  · refine isSound_of_bare ⟨rfl, rfl, rfl⟩ hbare (fun _ => by rw [hinner]) (hsound _ .refl)
      fun text htext => ?_
    rw [show m.texts b = [] from texts_eq_nil hb.plain hb.wellFormed] at htext
    exact absurd htext List.not_mem_nil
  · have hnext : next ∈ m.successors b := hnext
    rw [hb.successors_eq] at hnext
    obtain ⟨-, -, -, -, hnextScope⟩ := mem_parts.1 hnext
    have hpart := mem_parts_of_bare ⟨rfl, rfl, rfl⟩ hbare.symm (fun _ => by rw [hinner]) hnext
    rw [hinner, ← hnextScope] at hpart
    exact hsound place (Relation.ReflTransGen.head (List.mem_append_left _ hpart) hleads)

end Matcher

/-! ## Documents of plain schemas -/

namespace Draft

/-- Whether the walk over a document enters the schemas that an argument of a shape has. -/
def walks (keyword : String) : Shape → Bool
  | .schema => keyword ∈ Json.singleKeywords
  | .schemaOrSchemas => keyword ∈ Json.singleKeywords ∧ keyword ∈ Json.listKeywords
  | .schemas => keyword ∈ Json.listKeywords
  | .map inner => keyword ∈ Json.mapKeywords ∧ (inner = .schema ∨ inner = .schemaOrNames false)
  | .patternMap => keyword ∈ Json.mapKeywords
  | .schemaOrFlag | .schemaOrNames _ => false
  | _ => true

lemma walks_of_shape? {keyword : String} {shape : Shape} (h : draft7.shape? keyword = some shape) :
    walks keyword shape = true := by
  have hall : (draft7.annotationShape? keyword).all (walks keyword) = true
      ∧ (draft7.assertionShape? keyword).all (walks keyword) = true
      ∧ (draft7.applicatorShape? keyword).all (walks keyword) = true := by
    refine ⟨?_, ?_, ?_⟩
    · unfold annotationShape?
      split <;> rfl
    · simp only [assertionShape?, reduceCtorEq, if_false]
      split <;> rfl
    · simp only [applicatorShape?, reduceCtorEq, if_false]
      split <;> rfl
  rw [shape?, Option.or_eq_some_iff, Option.or_eq_some_iff] at h
  rcases h with h | ⟨-, h | ⟨-, h⟩⟩
  · simpa [h] using hall.1
  · simpa [h] using hall.2.1
  · simpa [h] using hall.2.2

variable {keyword : String} {shape inner : Shape}

lemma single_of_walks (hshape : shape.takesSchema = true) (h : walks keyword shape = true) :
    keyword ∈ Json.singleKeywords := by
  cases shape with
  | schema => exact of_decide_eq_true h
  | schemaOrSchemas => exact (of_decide_eq_true h).1
  | schemaOrFlag | schemaOrNames => simp [walks] at h
  | _ => simp [Shape.takesSchema] at hshape

lemma list_of_walks (hshape : shape.takesList = true) (h : walks keyword shape = true) :
    keyword ∈ Json.listKeywords := by
  cases shape with
  | schemas => exact of_decide_eq_true h
  | schemaOrSchemas => exact (of_decide_eq_true h).2
  | _ => simp [Shape.takesList] at hshape

lemma map_of_walks (hshape : shape.member? = some inner) (h : walks keyword shape = true) :
    keyword ∈ Json.mapKeywords ∧ inner ∈ [Shape.schema, .schemaOrNames false] := by
  cases shape with
  | map other =>
    obtain rfl := Option.some.inj hshape
    exact ⟨(of_decide_eq_true h).1, by simpa using (of_decide_eq_true h).2⟩
  | patternMap =>
    obtain rfl := Option.some.inj hshape
    exact ⟨of_decide_eq_true h, by simp⟩
  | _ => simp [Shape.member?] at hshape

end Draft

namespace Site

variable {scope : Scope} {site : Site} {keyword : String}

/-- Something stands in a plain and well-formed schema. -/
def SafeIn (value : Json) : Prop :=
  value.Plain ∧ value.WellFormed

lemma safeIn_of_mem_insideOf {keywords : Entries Json} (h : SafeIn (.object keywords))
    {entry : String × Json} (hentry : entry ∈ keywords) {tokens : List String} {inner : Json}
    (hmem : (tokens, inner) ∈ Json.insideOf entry.1 entry.2) : SafeIn inner := by
  have hinside := Json.mem_inside_iff.2 ⟨entry.1, entry.2, Entries.lookup_of_mem h.2.1 hentry, hmem⟩
  exact ⟨h.1.of_mem_inside hinside, Matcher.wellFormed_of_mem_inside h.2 hinside⟩

lemma holds_of_mem_insideOf {keywords inner : Entries Json} (h : SafeIn (.object keywords))
    {entry : String × Json} (hentry : entry ∈ keywords) {tokens rest : List String} {value : Json}
    (hmem : (tokens, value) ∈ Json.insideOf entry.1 entry.2) (hholds : value.Holds rest inner) :
    (Json.object keywords).Holds (tokens ++ rest) inner :=
  .of_keyword (Entries.lookup_of_mem h.2.1 hentry) hmem hholds

/-- **The sites in a plain schema** are schemas in it, and those in an argument of a keyword with plain
schemas are schemas in those: by induction on the way down, both at once. -/
lemma MetIn.holds {path : List String} {shape : Shape} {value : Json}
    (h : site.MetIn scope path shape value) (hscope : scope.draft = .draft7) :
    (SafeIn value → shape ∈ [Shape.schema, .schemaOrNames false] → ∃ rest, value.Holds rest site.keywords)
      ∧ ∀ keyword, Draft.walks keyword shape = true →
        (∀ tokens inner, (tokens, inner) ∈ Json.insideOf keyword value → SafeIn inner) →
        ∃ tokens inner rest, (tokens, inner) ∈ Json.insideOf keyword value
          ∧ inner.Holds rest site.keywords := by
  induction h with
  | self hshape =>
    refine ⟨fun _ _ => ⟨[], .self⟩, fun keyword hwalks _ => ?_⟩
    exact ⟨_, _, [], Json.mem_insideOf_single (Draft.single_of_walks hshape hwalks), .self⟩
  | @keyword scope path shape keywords key inner value hshape hmember hinner _ ih =>
    have hheld : SafeIn (.object keywords) → ∃ rest, (Json.object keywords).Holds rest site.keywords := by
      intro hsafe
      have hdraft := Matcher.draft_enter_of_plain hscope hsafe.1
      obtain ⟨tokens, below, rest, hmem, hholds⟩ := (ih hdraft).2 key
        (Draft.walks_of_shape? (hdraft ▸ hinner)) fun _ _ => safeIn_of_mem_insideOf hsafe hmember
      exact ⟨_, holds_of_mem_insideOf hsafe hmember hmem hholds⟩
    refine ⟨fun hsafe _ => hheld hsafe, fun keyword hwalks hinside => ?_⟩
    have hmem : ([keyword], Json.object keywords) ∈ Json.insideOf keyword (.object keywords) :=
      Json.mem_insideOf_single (Draft.single_of_walks hshape hwalks)
    obtain ⟨rest, hholds⟩ := hheld (hinside _ _ hmem)
    exact ⟨_, _, rest, hmem, hholds⟩
  | member hshape hmember _ ih =>
    refine ⟨fun _ hschema => ?_, fun keyword hwalks hinside => ?_⟩
    · rcases List.mem_pair.1 hschema with rfl | rfl <;> simp [Shape.member?] at hshape
    · obtain ⟨hkeyword, hinner⟩ := Draft.map_of_walks hshape hwalks
      have hmem := Json.mem_insideOf_named hkeyword hmember
      obtain ⟨rest, hholds⟩ := (ih hscope).1 (hinside _ _ hmem) hinner
      exact ⟨_, _, rest, hmem, hholds⟩
  | @item scope path shape items index value hshape hitem _ ih =>
    refine ⟨fun _ hschema => ?_, fun keyword hwalks hinside => ?_⟩
    · rcases List.mem_pair.1 hschema with rfl | rfl <;> simp [Shape.takesList] at hshape
    · have hmem := (Json.insideOf_list (Draft.list_of_walks hshape hwalks) items).2 ⟨index, hitem, rfl⟩
      obtain ⟨rest, hholds⟩ := (ih hscope).1 (hinside _ _ hmem) (by simp)
      exact ⟨_, _, rest, hmem, hholds⟩

end Site

namespace Document

variable {value : Json}

/-- A schema in what the document keeps is one of the value, but for the dialect. -/
lemma exists_holds_of_kept {path : List String} {inner : Entries Json} (h : (kept value).Holds path inner) :
    ∃ others, value.Holds path others ∧ inner ⊆ others ∧ SameButDialect inner others := by
  cases value with
  | object keywords =>
    have hsame : SameButDialect (Entries.erase "$schema" keywords) keywords := fun keyword hkeyword =>
      lookup_erase_of_ne hkeyword keywords
    cases h with
    | self => exact ⟨keywords, .self, List.filter_sublist.subset, hsame⟩
    | step hmem hholds =>
      exact ⟨inner, .step (inside_congr hsame ▸ hmem) hholds, List.Subset.refl _, fun _ _ => rfl⟩
  | _ => exact ⟨inner, h, List.Subset.refl _, fun _ _ => rfl⟩

lemma plain_kept (h : value.Plain) : (kept value).Plain := by
  intro path inner hholds entry hentry
  obtain ⟨others, hothers, hsubset, -⟩ := exists_holds_of_kept hholds
  exact h path others hothers entry (hsubset hentry)

lemma refFree_kept (h : value.RefFree) : (kept value).RefFree := by
  intro path inner hholds
  obtain ⟨others, hothers, -, hsame⟩ := exists_holds_of_kept hholds
  exact (hsame.contains_eq (by decide)).trans (h path others hothers)

/-- **A plain document** has no reference that could lead outside it. -/
lemma isClosed_of_plain (h : value.Plain) (hwf : value.WellFormed) :
    (ofJson .draft7 value).isClosed = true := by
  refine List.all_eq_true.2 fun site hsite => ?_
  have hsites : (ofJson .draft7 value).sites
      = Site.ofArgument ⟨.draft7, defaultBase⟩ [] .schema (kept value) := by
    cases value <;> rfl
  rw [hsites] at hsite
  have hkept : Site.SafeIn (kept value) := ⟨plain_kept h, wellFormed_kept hwf⟩
  obtain ⟨rest, hholds⟩ :=
    ((Site.metIn_of_mem_ofArgument _ [] .schema _ site hsite).holds rfl).1 hkept (by simp)
  have hreference : Draft.reference? site.keywords = none := by
    rw [Draft.reference?, (hkept.1.of_holds hholds).lookup_reference]
    rfl
  rw [hreference]

end Document

namespace Matcher

variable {m m' : Matcher} {value : Json}

/-- A matcher is of a plain document in the dialect of combinators. -/
structure OfPlain (m : Matcher) (value : Json) : Prop where
  document : m.document = .ofJson .draft7 value
  plain : value.Plain
  wellFormed : value.WellFormed

/-- **Plain schemas** find the same wrong for akin matchers, inside a document and as one. -/
lemma judge_eq_of_plain {scope : Scope} {schema : Json} {steps steps' : ℕ} (hakin : m.Akin m' schema)
    (hplain : schema.Plain) (hwf : schema.WellFormed) (hdraft : scope.draft = .draft7)
    (hsteps : schema.depth < steps) (hsteps' : (Document.kept schema).depth < steps') :
    m.judge steps scope schema value = m'.judge steps' scope (Document.kept schema) value :=
  judge_eq_of_refFree (a := (scope, schema)) (b := (scope, Document.kept schema)) hakin hplain.refFree
    hwf (Plan.bare_kept schema).symm
    (fun _ => (draft_inner_of_plain hdraft hplain).trans
      (draft_inner_of_plain hdraft (Document.plain_kept hplain)).symm) hsteps hsteps'

lemma akin_refl (m : Matcher) (value : Json) : m.Akin m value :=
  ⟨rfl, rfl, fun _ _ _ _ _ => rfl⟩

lemma Akin.kept (h : m.Akin m' value) : m.Akin m' (Document.kept value) where
  formats := h.formats
  extensions := h.extensions
  classes := fun path inner hholds => by
    obtain ⟨others, hothers, -, hsame⟩ := Document.exists_holds_of_kept hholds
    have hnames : namedClasses inner = namedClasses others := by
      rw [namedClasses, namedClasses, hsame "instanceOf" (by decide)]
    rw [hnames]
    exact h.classes path others hothers

namespace OfPlain

lemma start_eq (h : m.OfPlain value) :
    m.start = (⟨.draft7, Document.defaultBase⟩, Document.kept value) := by
  rw [start, h.document, Document.root_ofJson, Plan.scope_ofJson]

lemma confined (h : m.OfPlain value) (hakin : m.Akin m' value) : Confined m m' m.start := by
  rw [h.start_eq]
  exact ⟨hakin.kept, Document.plain_kept h.plain, Document.wellFormed_kept h.wellFormed, rfl⟩

lemma refersFromRoot (h : m.OfPlain value) : m.RefersFromRoot m.start := by
  intro scope keywords hleads htexts
  obtain ⟨hconfined, -⟩ := (h.confined (akin_refl m value)).of_leads hleads
  exact absurd (texts_eq_nil hconfined.plain hconfined.wellFormed) htexts

/-- **A plain document** can be matched against if it is a schema of the dialect and every schema in
reach is sound. -/
lemma check_iff (h : m.OfPlain value) : m.check value = .ok ()
    ↔ Draft.draft7.isSchema value = true
      ∧ ∀ place, Graph.Leads m.successors m.start place → m.isSound place = true := by
  have hdraft : m.document.scope.draft = .draft7 := by rw [h.document, Plan.scope_ofJson]
  constructor
  · intro hcheck
    refine ⟨hdraft ▸ (check_eq_ok_iff.1 hcheck).1, fun place hplace => ?_⟩
    exact sound_of_check h.document h.wellFormed h.refersFromRoot hcheck hplace
  · rintro ⟨hschema, hsound⟩
    refine check_eq_ok_iff.2 ⟨hdraft ▸ hschema, ?_, reach_ok hsound _ _⟩
    rw [h.document]
    exact Document.isClosed_of_plain h.plain h.wellFormed

lemma check_of_akin (h : m.OfPlain value) (h' : m'.OfPlain value) (hakin : m.Akin m' value)
    (hcheck : m.check value = .ok ()) : m'.check value = .ok () := by
  obtain ⟨hschema, hsound⟩ := h.check_iff.1 hcheck
  rw [h.start_eq, ← h'.start_eq] at hsound
  exact h'.check_iff.2 ⟨hschema, fun place hplace =>
    (h'.confined hakin.symm).symm.sound_of_leads hsound hplace⟩

/-- A document can be matched against if another one can that differs from it in what it shares. -/
lemma check_of_bare {document : Json} (h : m.OfPlain document) (h' : m'.OfPlain value)
    (halike : m.Alike m') (hbare : bare document = bare value)
    (hschema : Draft.draft7.isSchema value = true) (hcheck : m.check document = .ok ()) :
    m'.check value = .ok () := by
  have hakin : m.Akin m' document :=
    ⟨halike.formats, halike.extensions, fun _ _ _ _ _ => by rw [halike.registry]⟩
  have hconfined := h.confined hakin
  have hstart : bare m.start.2 = bare m'.start.2 := by
    rw [h.start_eq, h'.start_eq, Plan.bare_kept, Plan.bare_kept, hbare]
  have hscope : m.start.1 = m'.start.1 := by rw [h.start_eq, h'.start_eq]
  have hsound : ∀ place, Graph.Leads m'.successors m.start place → m'.isSound place = true :=
    fun place hplace => hconfined.sound_of_leads (h.check_iff.1 hcheck).2 hplace
  have hown : Confined m' m' m.start :=
    ⟨akin_refl m' _, hconfined.plain, hconfined.wellFormed, hconfined.draft⟩
  exact h'.check_iff.2 ⟨hschema, fun place hplace =>
    hown.sound_of_bare (h'.confined (akin_refl m' value)) hstart hscope hsound hplace⟩

end OfPlain

end Matcher

end SchemaAlgebra
