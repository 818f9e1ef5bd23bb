import SchemaAlgebra.Proofs.Budget

/-!
# Branches as documents of their own

The matcher of a branch is built from the branch alone, with the definitions of the document that it
is from (`Plan.branchDocument`).  It finds the same wrong with every value as the matcher of the
document does at the branch, provided that every reference met from the branch still leads to the same
schema.

* `Matcher.judge_eq_of_twins` — two matchers that go through the same schemas find the same wrong.
* `Matcher.exists_twin_of_leads` — and they do go through the same schemas, if references lead to the
  same.
* `Plan.isSchema_branchDocument` — a branch is a schema of the dialect with the definitions of its
  document if it is one without them.
* `Plan.branch_has_matcher_iff` — a branch has a matcher at all exactly if what is met from it as a
  document of its own is sound.
* `Plan.branch_stands_alone_iff` — a branch has a matcher that agrees with the document exactly if no
  reference met from it is left without a schema, provided that none is mistaken.

A reference is mistaken if it leads to another schema from the branch than in the document: `#` is the
branch itself there, and a branch with definitions of its own keeps these.  Such a branch may well have a
matcher, but one that does not agree (`Plan.branches_mistake_references`).
-/

namespace SchemaAlgebra

namespace Matcher

/-! ## Schemas that differ in what they share -/

/-- A schema without what it shares with its document. -/
def bare : Json → Json
  | .object keywords => .object (own keywords)
  | schema => schema

variable {m m' : Matcher} {keywords others : Entries Json} {a b : Place}

lemma exists_object_of_bare {schema : Json} (h : bare (.object keywords) = bare schema) :
    ∃ others, schema = .object others ∧ own keywords = own others := by
  cases schema with
  | object others => exact ⟨others, rfl, Json.object.inj h⟩
  | _ => simp [bare] at h

lemma own_filter (p : String × Json → Bool) (keywords : Entries Json) :
    own (keywords.filter p) = (own keywords).filter p :=
  List.filter_comm _ _ keywords

lemma own_effectiveKeywords_eq_of_own (h : own keywords = own others) (draft : Draft) :
    own (effectiveKeywords draft keywords) = own (effectiveKeywords draft others) := by
  rw [effectiveKeywords, effectiveKeywords, (sameSiblings_of_own h).reference?_eq]
  split
  · rw [own_filter, own_filter, h]
  · exact h

lemma mem_own {entry : String × Json} :
    entry ∈ own keywords ↔ entry ∈ keywords ∧ entry.1 ∉ Plan.sharedKeywords := by
  rw [own, List.mem_filter, decide_eq_true_iff]

/-- A lead is empty, or one of every schema that differs only in what it shares. -/
lemma mem_leads_of_bare (halike : m.Alike m') (hbare : bare a.2 = bare b.2)
    (hdraft : a.2.isObject = true → a.inner.draft = b.inner.draft) {lead : Lead} (h : lead ∈ m.leads a) :
    lead = .nothing ∨ lead = .schemas [] [] ∨ lead ∈ m'.leads b := by
  obtain ⟨keywords, hkeywords⟩ := exists_object_of_mem_leads h
  obtain ⟨scope, schema⟩ := a
  obtain ⟨scope', schema'⟩ := b
  obtain rfl : schema = .object keywords := hkeywords
  obtain ⟨others, rfl, hown⟩ := exists_object_of_bare hbare
  have hdraft : (scope.enter keywords).draft = (scope'.enter others).draft := hdraft rfl
  obtain ⟨entry, hentry, rfl⟩ := mem_leads_object.1 h
  by_cases hshared : entry.1 ∈ Plan.sharedKeywords
  · exact (lead_of_shared hshared).imp id Or.inl
  · have hmem : entry ∈ own (effectiveKeywords (scope'.enter others).draft others) := by
      rw [← own_effectiveKeywords_eq_of_own hown, ← hdraft]
      exact mem_own.2 ⟨hentry, hshared⟩
    refine Or.inr (Or.inr (mem_leads_object.2 ⟨entry, (mem_own.1 hmem).1, ?_⟩))
    rw [← halike.lead_eq, ← (sameSiblings_of_own hown).lead_eq, hdraft]

lemma mem_texts_of_bare (halike : m.Alike m') (hbare : bare a.2 = bare b.2)
    (hdraft : a.2.isObject = true → a.inner.draft = b.inner.draft) {text : String} (h : text ∈ m.texts a) :
    text ∈ m'.texts b := by
  rcases mem_leads_of_bare halike hbare hdraft (mem_texts.1 h) with hlead | hlead | hlead
  · simp at hlead
  · simp at hlead
  · exact mem_texts.2 hlead

lemma mem_parts_of_bare (halike : m.Alike m') (hbare : bare a.2 = bare b.2)
    (hdraft : a.2.isObject = true → a.inner.draft = b.inner.draft) {part : Place} (h : part ∈ m.parts a) :
    (b.inner, part.2) ∈ m'.parts b := by
  obtain ⟨patterns, schemas, hlead, hschema, -⟩ := mem_parts.1 h
  rcases mem_leads_of_bare halike hbare hdraft hlead with hempty | hempty | hlead
  · simp at hempty
  · rw [(Lead.schemas.inj hempty).2] at hschema
    simp at hschema
  · exact mem_parts.2 ⟨patterns, schemas, hlead, hschema, rfl⟩

lemma isObject_eq_of_bare {schema schema' : Json} (h : bare schema = bare schema') :
    schema.isObject = schema'.isObject := by
  cases schema <;> cases schema' <;> simp_all [bare, Json.isObject]

lemma eq_of_bare {schema schema' : Json} (hobject : schema.isObject = false)
    (h : bare schema = bare schema') : schema = schema' := by
  cases schema <;> cases schema' <;> simp_all [bare, Json.isObject]

lemma bool?_eq_of_bare {schema schema' : Json} (h : bare schema = bare schema') :
    schema.bool? = schema'.bool? := by
  cases schema <;> cases schema' <;> simp_all [bare, Json.bool?]

/-- A schema is as sound as one that differs only in what it shares, but for its references. -/
lemma isSound_of_bare (halike : m.Alike m') (hbare : bare a.2 = bare b.2)
    (hdraft : a.2.isObject = true → a.inner.draft = b.inner.draft) (hsound : m.isSound a = true)
    (hresolves : ∀ text ∈ m'.texts b, (m'.document.resolve? b.inner text).isSome = true) :
    m'.isSound b = true := by
  rw [isSound, Bool.and_eq_true, List.all_eq_true] at hsound ⊢
  constructor
  · rw [← isObject_eq_of_bare hbare, ← bool?_eq_of_bare hbare]
    exact hsound.1
  · intro lead hlead
    have hback := mem_leads_of_bare halike.symm hbare.symm
      (fun hobject => (hdraft (by rw [isObject_eq_of_bare hbare, hobject])).symm) hlead
    rcases hback with rfl | rfl | hback
    · rfl
    · rfl
    · have hlead' := hsound.2 lead hback
      cases lead with
      | fault fault => exact hlead'
      | nothing => rfl
      | reference text => exact hresolves text (mem_texts.2 hlead)
      | schemas patterns schemas => exact hlead'

/-! ## Matching the same schemas in two documents -/

lemma Rooted.of_leads (h : m.Rooted a) (hleads : Graph.Leads m.successors a b) : m.Rooted b :=
  fun scope keywords hmet => h scope keywords (hleads.trans hmet)

lemma Rooted.inner_eq (h : m.Rooted a) (hobject : a.2.isObject = true) :
    a.inner = m.document.rootScope := by
  obtain ⟨scope, schema⟩ := a
  cases schema with
  | object keywords => exact h scope keywords Relation.ReflTransGen.refl
  | _ => simp [Json.isObject] at hobject

/-- **Twins.**  Two matchers at places of theirs where they look at the same: they are set up alike,
read references against the roots of their documents, and the schemas differ only in what they share.
-/
structure Twins (m m' : Matcher) (a b : Place) : Prop where
  alike : m.Alike m'
  draft : m.document.rootScope.draft = m'.document.rootScope.draft
  rooted : m.Rooted a
  rooted' : m'.Rooted b
  bare : bare a.2 = bare b.2

lemma Twins.symm (h : Twins m m' a b) : Twins m' m b a :=
  ⟨h.alike.symm, h.draft.symm, h.rooted', h.rooted, h.bare.symm⟩

lemma Twins.inner_draft (h : Twins m m' a b) (hobject : a.2.isObject = true) :
    a.inner.draft = b.inner.draft := by
  rw [h.rooted.inner_eq hobject, h.draft, h.rooted'.inner_eq]
  rw [← isObject_eq_of_bare h.bare, hobject]

lemma Twins.mem_texts (h : Twins m m' a b) {text : String} (htext : text ∈ m.texts a) :
    text ∈ m'.texts b :=
  mem_texts_of_bare h.alike h.bare h.inner_draft htext

lemma Twins.mem_parts (h : Twins m m' a b) {part : Place} (hpart : part ∈ m.parts a) :
    (b.inner, part.2) ∈ m'.parts b :=
  mem_parts_of_bare h.alike h.bare h.inner_draft hpart

lemma Twins.part (h : Twins m m' a b) {part : Place} (hpart : part ∈ m.parts a) :
    Twins m m' part (b.inner, part.2) where
  alike := h.alike
  draft := h.draft
  rooted := h.rooted.of_leads (Relation.ReflTransGen.single (List.mem_append_left _ hpart))
  rooted' := h.rooted'.of_leads
    (Relation.ReflTransGen.single (List.mem_append_left _ (h.mem_parts hpart)))
  bare := rfl

/-- Every reference met from a place leads somewhere in both documents, and to the same schema. -/
def SameTargets (m m' : Matcher) (place : Place) : Prop :=
  ∀ met, Graph.Leads m.successors place met → ∀ text ∈ m.texts met, ∃ target other,
    m.document.resolve? m.document.rootScope text = some target
      ∧ m'.document.resolve? m'.document.rootScope text = some other
      ∧ Matcher.bare target.value = Matcher.bare other.value

lemma isObject_of_mem_leads {lead : Lead} (h : lead ∈ m.leads a) : a.2.isObject = true := by
  obtain ⟨keywords, hkeywords⟩ := exists_object_of_mem_leads h
  rw [hkeywords]
  rfl

lemma Rooted.mem_targets (h : m.Rooted a) {text : String} (htext : text ∈ m.texts a)
    {target : Location}
    (htarget : m.document.resolve? m.document.rootScope text = some target) :
    (target.scope, target.value) ∈ m.targets a := by
  refine Matcher.mem_targets.2 ⟨text, htext, target, ?_, rfl⟩
  rw [h.inner_eq (isObject_of_mem_leads (Matcher.mem_texts.1 htext)), htarget]

lemma Twins.target (h : Twins m m' a b) {text : String} (htext : text ∈ m.texts a)
    {target other : Location}
    (htarget : m.document.resolve? m.document.rootScope text = some target)
    (hother : m'.document.resolve? m'.document.rootScope text = some other)
    (hbare : Matcher.bare target.value = Matcher.bare other.value) :
    Twins m m' (target.scope, target.value) (other.scope, other.value) where
  alike := h.alike
  draft := h.draft
  rooted := h.rooted.of_leads (Relation.ReflTransGen.single
    (List.mem_append_right _ (h.rooted.mem_targets htext htarget)))
  rooted' := h.rooted'.of_leads (Relation.ReflTransGen.single
    (List.mem_append_right _ (h.rooted'.mem_targets (h.mem_texts htext) hother)))
  bare := hbare

lemma wellFormed_of_mem_successors (hlisted : m.document.Listed)
    (hroot : m.document.root.WellFormed) (ha : a.2.WellFormed) (h : b ∈ m.successors a) :
    b.2.WellFormed := by
  rcases List.mem_append.1 h with hpart | htarget
  · obtain ⟨scope, schema⟩ := a
    obtain ⟨patterns, schemas, hlead, -, -⟩ := mem_parts.1 hpart
    obtain ⟨keywords, hkeywords⟩ := exists_object_of_mem_leads hlead
    obtain rfl : schema = .object keywords := hkeywords
    obtain ⟨path, hpath⟩ := (argues_of_mem_parts ha.1 hpart).exists_walk? ha
    exact Json.wellFormed_of_walk? ha hpath
  · obtain ⟨text, -, target, hresolve, rfl⟩ := mem_targets.1 htarget
    exact Json.wellFormed_of_walk? hroot (Document.resolve?_sound hlisted hresolve)

lemma flatMap_own {β : Type} {f : String × Json → List β}
    (h : ∀ entry ∈ keywords, entry.1 ∈ Plan.sharedKeywords → f entry = []) :
    (own keywords).flatMap f = keywords.flatMap f := by
  induction keywords with
  | nil => rfl
  | cons entry rest ih =>
    have hrest := ih fun other hother => h other (List.mem_cons_of_mem _ hother)
    rw [List.flatMap_cons, ← hrest]
    by_cases hshared : entry.1 ∈ Plan.sharedKeywords
    · rw [h entry List.mem_cons_self hshared, List.nil_append, own,
        List.filter_cons_of_neg (by simpa using hshared), own]
    · rw [own, List.filter_cons_of_pos (by simpa using hshared), List.flatMap_cons, own]

lemma nodeViolations_eq_own {judge : Judge} {scope : Scope} {value : Json} :
    m.nodeViolations judge scope keywords value
      = (own (effectiveKeywords scope.draft keywords)).flatMap fun entry =>
        m.keywordViolations judge scope keywords entry.1 entry.2 value :=
  (flatMap_own fun _ _ hshared => keywordViolations_of_shared hshared).symm

lemma followReference_congr {judge judge' : Judge} {scope scope' : Scope} {text : String}
    {value : Json} {target other : Location}
    (htarget : m.document.resolve? scope text = some target)
    (hother : m'.document.resolve? scope' text = some other)
    (hbare : bare target.value = bare other.value)
    (h : judge target.scope target.value value = judge' other.scope other.value value) :
    m.followReference judge scope text value = m'.followReference judge' scope' text value := by
  have hreference : target.value.members?.bind Draft.reference?
      = other.value.members?.bind Draft.reference? := by
    by_cases hobject : target.value.isObject = true
    · obtain ⟨keywords, hkeywords⟩ := exists_object_of_isObject hobject
      rw [hkeywords] at hbare ⊢
      obtain ⟨others, hothers, hown⟩ := exists_object_of_bare hbare
      rw [hothers]
      exact (sameSiblings_of_own hown).reference?_eq
    · rw [eq_of_bare (by simpa using hobject) hbare]
  rw [followReference, followReference, htarget, hother]
  dsimp only
  rw [hreference, applyHere, applyHere, h]

/-- **Twins find the same wrong**, whatever the budget. -/
lemma judge_eq_of_twins (hlisted : m.document.Listed) (hroot : m.document.root.WellFormed)
    {steps : ℕ} (htwins : Twins m m' a b) (hsame : SameTargets m m' a) (ha : a.2.WellFormed)
    (value : Json) : m.judge steps a.1 a.2 value = m'.judge steps b.1 b.2 value := by
  induction steps generalizing a b value with
  | zero => rfl
  | succ steps ih =>
    have hgo : ∀ {c d : Place}, c ∈ m.successors a → Twins m m' c d → ∀ value,
        m.judge steps c.1 c.2 value = m'.judge steps d.1 d.2 value := fun hc htwins value =>
      ih htwins (fun met hmet => hsame met (Relation.ReflTransGen.head hc hmet))
        (wellFormed_of_mem_successors hlisted hroot ha hc) value
    obtain ⟨scope, schema⟩ := a
    obtain ⟨scope', schema'⟩ := b
    by_cases hobject : schema.isObject = true
    · obtain ⟨keywords, rfl⟩ := exists_object_of_isObject hobject
      obtain ⟨others, rfl, hown⟩ := exists_object_of_bare htwins.bare
      have hdraft : (scope.enter keywords).draft = (scope'.enter others).draft :=
        htwins.inner_draft rfl
      change m.nodeViolations _ (scope.enter keywords) keywords value
        = m'.nodeViolations _ (scope'.enter others) others value
      -- both sides go through the same entries: the shared ones find nothing wrong
      rw [nodeViolations_eq_own, nodeViolations_eq_own, ← hdraft,
        ← own_effectiveKeywords_eq_of_own hown]
      refine List.flatMap_congr fun entry hentry => ?_
      have hmem := (mem_own.1 hentry).1
      have hlead : m.lead (scope.enter keywords).draft keywords entry
          ∈ m.leads (scope, .object keywords) := List.mem_map_of_mem hmem
      rw [← (sameSiblings_of_own hown).keywordViolations_eq]
      refine keywordViolations_congr htwins.alike hdraft
        (Entries.lookup_of_mem ha.1 (mem_of_mem_effectiveKeywords hmem)) ?_ ?_
      · intro text htext
        have htext : text ∈ m.texts (scope, .object keywords) := mem_texts.2 (htext ▸ hlead)
        obtain ⟨target, other, htarget, hother, hbare⟩ :=
          hsame _ Relation.ReflTransGen.refl text htext
        have hinner : scope.enter keywords = m.document.rootScope := htwins.rooted.inner_eq rfl
        have hinner' : scope'.enter others = m'.document.rootScope := htwins.rooted'.inner_eq rfl
        exact followReference_congr (hinner ▸ htarget) (hinner' ▸ hother) hbare
          (hgo (List.mem_append_right _ (htwins.rooted.mem_targets htext htarget))
            (htwins.target htext htarget hother hbare) value)
      · intro patterns schemas hschemas schema hschema inner _
        have hpart : (scope.enter keywords, schema) ∈ m.parts (scope, .object keywords) :=
          mem_parts.2 ⟨patterns, schemas, hschemas ▸ hlead, hschema, rfl⟩
        exact hgo (List.mem_append_left _ hpart) (htwins.part hpart) inner
    · have hobject : schema.isObject = false := by simpa using hobject
      obtain rfl : schema = schema' := eq_of_bare hobject htwins.bare
      exact judge_of_not_object hobject

/-! ## Going through the same schemas -/

lemma exists_twin_of_leads (htwins : Twins m m' a b)
    (hsame : ∀ c d, Graph.Leads m.successors a c → Graph.Leads m'.successors b d →
      Twins m m' c d → ∀ text ∈ m.texts c, ∃ target other,
        m.document.resolve? m.document.rootScope text = some target
          ∧ m'.document.resolve? m'.document.rootScope text = some other
          ∧ Matcher.bare target.value = Matcher.bare other.value)
    {c : Place} (h : Graph.Leads m.successors a c) :
    ∃ d, Graph.Leads m'.successors b d ∧ Twins m m' c d := by
  induction h with
  | refl => exact ⟨b, Relation.ReflTransGen.refl, htwins⟩
  | @tail before after hbefore hstep ih =>
    obtain ⟨d, hd, hdtwins⟩ := ih
    rcases List.mem_append.1 hstep with hpart | htarget
    · exact ⟨_, hd.tail (List.mem_append_left _ (hdtwins.mem_parts hpart)), hdtwins.part hpart⟩
    · obtain ⟨text, htext, location, hlocation, rfl⟩ := Matcher.mem_targets.1 htarget
      obtain ⟨target, other, hresolve, hother, hbare⟩ := hsame before d hbefore hd hdtwins text htext
      rw [hdtwins.rooted.inner_eq (isObject_of_mem_leads (Matcher.mem_texts.1 htext)),
        hresolve] at hlocation
      obtain rfl := Option.some.inj hlocation
      exact ⟨(other.scope, other.value), hd.tail (List.mem_append_right _
        (hdtwins.rooted'.mem_targets (hdtwins.mem_texts htext) hother)),
        hdtwins.target htext hresolve hother hbare⟩

/-- **No reference is mistaken.**  Every reference met from a place leads somewhere in the document
of `m`, and in the document of `m'` it leads to no other schema. -/
def Unmistaken (m m' : Matcher) (place : Place) : Prop :=
  ∀ met, Graph.Leads m.successors place met → ∀ text ∈ m.texts met, ∃ target,
    m.document.resolve? m.document.rootScope text = some target
      ∧ ∀ other, m'.document.resolve? m'.document.rootScope text = some other →
        Matcher.bare target.value = Matcher.bare other.value

/-- **Every schema met is sound**, and its references lead somewhere in another document too. -/
def SoundIn (m m' : Matcher) (place : Place) : Prop :=
  ∀ met, Graph.Leads m.successors place met → m.isSound met = true
    ∧ ∀ text ∈ m.texts met, (m'.document.resolve? m'.document.rootScope text).isSome = true

lemma Unmistaken.sameTargets {place : Place} (hunmistaken : Unmistaken m m' place)
    (h : SoundIn m m' place) : SameTargets m m' place := by
  intro met hmet text htext
  obtain ⟨target, htarget, hother⟩ := hunmistaken met hmet text htext
  obtain ⟨other, hresolve⟩ := Option.isSome_iff_exists.1 ((h met hmet).2 text htext)
  exact ⟨target, other, htarget, hresolve, hother other hresolve⟩

/-- What is sound in one document is so in the other. -/
lemma sound_of_soundIn (htwins : Twins m m' a b) (hunmistaken : Unmistaken m m' a)
    (h : SoundIn m m' a) {d : Place} (hd : Graph.Leads m'.successors b d) :
    m'.isSound d = true := by
  have hsame := hunmistaken.sameTargets h
  obtain ⟨c, hc, hdtwins⟩ := exists_twin_of_leads htwins.symm (fun d c _ hc hdtwins text htext => by
    obtain ⟨target, other, htarget, hother, hbare⟩ := hsame c hc text (hdtwins.mem_texts htext)
    exact ⟨other, target, hother, htarget, hbare.symm⟩) hd
  have hctwins := hdtwins.symm
  refine isSound_of_bare hctwins.alike hctwins.bare hctwins.inner_draft (h c hc).1
    fun text htext => ?_
  rw [hdtwins.rooted.inner_eq (isObject_of_mem_leads (Matcher.mem_texts.1 htext))]
  exact (h c hc).2 text (hdtwins.mem_texts htext)

/-- And the other way round, if the references lead anywhere here. -/
lemma soundIn_of_sound (htwins : Twins m m' a b) (hunmistaken : Unmistaken m m' a)
    (h : ∀ d, Graph.Leads m'.successors b d → m'.isSound d = true) : SoundIn m m' a := by
  have hresolves : ∀ c d, Graph.Leads m'.successors b d → Twins m m' c d → ∀ text ∈ m.texts c,
      (m'.document.resolve? m'.document.rootScope text).isSome = true := by
    intro c d hd hdtwins text htext
    have hsound := h d hd
    rw [isSound, Bool.and_eq_true, List.all_eq_true] at hsound
    have hlead := Matcher.mem_texts.1 (hdtwins.mem_texts htext)
    rw [← hdtwins.rooted'.inner_eq (isObject_of_mem_leads hlead)]
    exact hsound.2 _ hlead
  intro c hc
  obtain ⟨d, hd, hdtwins⟩ := exists_twin_of_leads htwins (fun c d hc hd hdtwins text htext => by
    obtain ⟨target, htarget, hother⟩ := hunmistaken c hc text htext
    obtain ⟨other, hresolve⟩ := Option.isSome_iff_exists.1 (hresolves c d hd hdtwins text htext)
    exact ⟨target, other, htarget, hresolve, hother other hresolve⟩) hc
  have hctwins := hdtwins.symm
  refine ⟨isSound_of_bare hctwins.alike hctwins.bare hctwins.inner_draft (h d hd)
    fun text htext => ?_, hresolves c d hd hdtwins⟩
  obtain ⟨target, htarget, -⟩ := hunmistaken c hc text htext
  rw [hdtwins.rooted.inner_eq (isObject_of_mem_leads (Matcher.mem_texts.1 htext)), htarget]
  rfl

end Matcher

/-! ## Branch documents -/

lemma Entries.mem_insert_of_not_contains {α : Type} {key : String} {value : α} {entries : Entries α}
    (h : Entries.contains key entries = false) {entry : String × α} :
    entry ∈ Entries.insert key value entries ↔ entry = (key, value) ∨ entry ∈ entries := by
  refine ⟨Entries.mem_insert, fun hentry => ?_⟩
  induction entries with
  | nil => simpa [Entries.insert] using hentry
  | cons head rest ih =>
    obtain ⟨k, v⟩ := head
    obtain ⟨hk, hrest⟩ : k ≠ key ∧ Entries.contains key rest = false := by
      simpa [Entries.contains] using h
    rw [Entries.insert]
    split
    · rcases hentry with rfl | hentry
      · exact List.mem_cons_of_mem _ (ih hrest (Or.inl rfl))
      · rcases List.mem_cons.1 hentry with rfl | hentry
        · exact List.mem_cons_self
        · exact List.mem_cons_of_mem _ (ih hrest (Or.inr hentry))
    · exact List.mem_cons.2 hentry

namespace Plan

open Matcher (own bare)

variable {source keywords : Entries Json} {keyword : String}

lemma own_insert (hkeyword : keyword ∈ sharedKeywords) (value : Json) :
    own (Entries.insert keyword value keywords) = own keywords := by
  induction keywords with
  | nil => simp [Entries.insert, own, hkeyword]
  | cons head rest ih =>
    obtain ⟨k, v⟩ := head
    rw [Entries.insert]
    split
    · by_cases hk : k ∈ sharedKeywords
      · simpa [own, hk] using ih
      · simpa [own, hk] using ih
    · split
      · rename_i hk
        subst hk
        simp [own, hkeyword]
      · simp [own, hkeyword]

lemma own_share (hkeyword : keyword ∈ sharedKeywords) :
    own (share source keywords keyword) = own keywords := by
  unfold share
  split
  · split
    · rfl
    · exact own_insert hkeyword _
  · rfl

lemma mem_share_of_mem {entry : String × Json} (h : entry ∈ keywords) :
    entry ∈ share source keywords keyword := by
  unfold share
  split
  · split
    · exact h
    · rename_i hcontains
      exact (Entries.mem_insert_of_not_contains (by simpa using hcontains)).2 (Or.inr h)
  · exact h

lemma mem_or_mem_of_mem_share {entry : String × Json} (h : entry ∈ share source keywords keyword) :
    entry ∈ keywords ∨ entry ∈ source := by
  unfold share at h
  split at h
  · rename_i value hvalue
    split at h
    · exact Or.inl h
    · rcases Entries.mem_insert h with rfl | h
      · exact Or.inr (Entries.mem_of_lookup hvalue)
      · exact Or.inl h
  · exact Or.inl h

lemma sorted_share (h : keywords.Sorted) : (share source keywords keyword).Sorted := by
  unfold share
  split
  · split
    · exact h
    · exact h.insert _ _
  · exact h

/-- The keywords of a branch, with those that it shares with its document. -/
def shareAll (source keywords : Entries Json) : Entries Json :=
  sharedKeywords.foldl (share source) keywords

lemma own_shareAll : own (shareAll source keywords) = own keywords := by
  rw [shareAll, sharedKeywords, List.foldl_cons, List.foldl_cons, List.foldl_cons, List.foldl_nil,
    own_share (by decide), own_share (by decide), own_share (by decide)]

lemma mem_shareAll_of_mem {entry : String × Json} (h : entry ∈ keywords) :
    entry ∈ shareAll source keywords :=
  mem_share_of_mem (mem_share_of_mem (mem_share_of_mem h))

lemma mem_or_mem_of_mem_shareAll {entry : String × Json} (h : entry ∈ shareAll source keywords) :
    entry ∈ keywords ∨ entry ∈ source := by
  rcases mem_or_mem_of_mem_share h with h | h
  · rcases mem_or_mem_of_mem_share h with h | h
    · exact mem_or_mem_of_mem_share h
    · exact Or.inr h
  · exact Or.inr h

lemma sorted_shareAll (h : keywords.Sorted) : (shareAll source keywords).Sorted :=
  sorted_share (sorted_share (sorted_share h))

variable {document branch : Json} {pointer : Pointer} {draft : Draft}

lemma branchDocument_object (h : document.resolve? pointer = some (.object keywords)) :
    branchDocument document pointer
      = .object (shareAll ((document.members?).getD []) keywords) := by
  rw [branchDocument, h]
  rfl

lemma branchDocument_of_not_object (h : document.resolve? pointer = some branch)
    (hobject : branch.isObject = false) : branchDocument document pointer = branch := by
  rw [branchDocument, h]
  cases branch with
  | object keywords => simp [Json.isObject] at hobject
  | _ => rfl

lemma wellFormed_branchDocument (hwf : document.WellFormed)
    (hbranch : document.resolve? pointer = some branch) (hbranchwf : branch.WellFormed) :
    (branchDocument document pointer).WellFormed := by
  by_cases hobject : branch.isObject = true
  · obtain ⟨keywords, rfl⟩ := Matcher.exists_object_of_isObject hobject
    rw [branchDocument_object hbranch]
    refine ⟨sorted_shareAll hbranchwf.1, Json.membersWellFormed_iff.2 fun member hmember => ?_⟩
    rcases mem_or_mem_of_mem_shareAll hmember with hmember | hmember
    · exact Json.wellFormed_of_mem_members hbranchwf.2 hmember
    · obtain ⟨members, rfl⟩ := Matcher.exists_object_of_mem_members hmember
      exact Json.wellFormed_of_mem_members hwf.2 hmember
  · rw [branchDocument_of_not_object hbranch (by simpa using hobject)]
    exact hbranchwf

/-- The dialect that a document announces is among what it shares. -/
lemma bare_kept (value : Json) : bare (Document.kept value) = bare value := by
  cases value with
  | object keywords =>
    have herase : own (Entries.erase "$schema" keywords) = own keywords := by
      rw [own, Entries.erase, List.filter_filter]
      refine List.filter_congr fun entry _ => ?_
      by_cases hkey : entry.1 = "$schema" <;> simp [hkey, sharedKeywords]
    exact congrArg Json.object herase
  | _ => rfl

lemma bare_branchDocument (hbranch : document.resolve? pointer = some branch) :
    bare (branchDocument document pointer) = bare branch := by
  by_cases hobject : branch.isObject = true
  · obtain ⟨keywords, rfl⟩ := Matcher.exists_object_of_isObject hobject
    rw [branchDocument_object hbranch]
    exact congrArg Json.object own_shareAll
  · rw [branchDocument_of_not_object hbranch (by simpa using hobject)]

lemma bare_kept_branchDocument (hbranch : document.resolve? pointer = some branch) :
    bare (Document.kept (branchDocument document pointer)) = bare branch :=
  (bare_kept _).trans (bare_branchDocument hbranch)

lemma fitKeywords_iff {keywords : Entries Json} : draft.fitKeywords keywords = true
    ↔ ∀ entry ∈ keywords, ∀ shape, draft.shape? entry.1 = some shape →
      draft.fits shape entry.2 = true := by
  induction keywords with
  | nil => simp [Draft.fitKeywords]
  | cons head rest ih =>
    rw [Draft.fitKeywords, Bool.and_eq_true, ih, List.forall_mem_cons]
    refine and_congr_left fun _ => ?_
    cases draft.shape? head.1 <;> simp

/-- A branch is a schema of the dialect with the definitions of its document if it is one without. -/
lemma isSchema_branchDocument (hdocument : draft.isSchema document = true)
    (hbranch : document.resolve? pointer = some branch) :
    draft.isSchema (branchDocument document pointer) = draft.isSchema branch := by
  by_cases hobject : branch.isObject = true
  · obtain ⟨keywords, rfl⟩ := Matcher.exists_object_of_isObject hobject
    have hown : own (shareAll ((document.members?).getD []) keywords) = own keywords := own_shareAll
    have hsource : ∀ entry ∈ (document.members?).getD [], ∀ shape,
        draft.shape? entry.1 = some shape → draft.fits shape entry.2 = true := by
      cases document with
      | object members =>
        rw [Draft.isSchema, Draft.fits, Bool.and_eq_true] at hdocument
        exact fitKeywords_iff.1 hdocument.2
      | _ => simp [Json.members?]
    have hkeywords : draft.fitKeywords (shareAll ((document.members?).getD []) keywords)
        = draft.fitKeywords keywords := by
      rw [Bool.eq_iff_iff, fitKeywords_iff, fitKeywords_iff]
      refine ⟨fun h entry hentry => h entry (mem_shareAll_of_mem hentry), fun h entry hentry => ?_⟩
      rcases mem_or_mem_of_mem_shareAll hentry with hentry | hentry
      · exact h entry hentry
      · exact hsource entry hentry
    rw [branchDocument_object hbranch, Draft.isSchema, Draft.isSchema, Draft.fits, Draft.fits,
      hkeywords, Draft.fitsSiblings, Draft.fitsSiblings,
      Matcher.contains_eq_of_own hown "exclusiveMaximum" (by decide),
      Matcher.contains_eq_of_own hown "maximum" (by decide),
      Matcher.contains_eq_of_own hown "exclusiveMinimum" (by decide),
      Matcher.contains_eq_of_own hown "minimum" (by decide)]
  · rw [branchDocument_of_not_object hbranch (by simpa using hobject)]

/-! ## Matchers of branches -/

/-- A branch at a place of a document can be matched against as a document of its own. -/
structure StandsAlone (m alone : Matcher) (place : Matcher.Place) : Prop where
  /-- The branch is a schema of the dialect. -/
  isSchema : m.document.scope.draft.isSchema place.2 = true
  /-- No reference of the document made of the branch leads outside it. -/
  isClosed : alone.document.isClosed = true
  /-- The schemas met from the branch are sound, and none of their references is left without one. -/
  sound : Matcher.SoundIn m alone place

lemma scope_ofJson (draft : Draft) (value : Json) :
    (Document.ofJson draft value).scope = ⟨draft, Document.defaultBase⟩ := by
  cases value <;> rfl

lemma rootScope_draft_ofJson (draft : Draft) (value : Json) :
    (Document.ofJson draft value).rootScope.draft = draft := by
  cases value with
  | object keywords =>
    have hlookup := Document.lookup_erase_self "$schema" keywords
    change (Scope.enter ⟨draft, Document.defaultBase⟩ (Entries.erase "$schema" keywords)).draft
      = draft
    rw [Scope.enter, hlookup]
    rfl
  | _ => rfl

lemma build_eq_ok_iff {options : MatcherOptions} {extensions : List Extension} {registry : Registry}
    {value : Json} {m : Matcher} : Matcher.build options extensions registry value = .ok m
      ↔ m = ⟨.ofJson options.effectiveDraft value, options.enforcesFormats, extensions, registry⟩
        ∧ m.check value = .ok () := by
  refine ⟨Matcher.build_ok, ?_⟩
  rintro ⟨rfl, hcheck⟩
  exact bind_eq_ok.2 ⟨(), hcheck, rfl⟩

/-- The matcher of a branch, if there is one: that of the document has the same settings. -/
def aloneOf (m : Matcher) (document : Json) (pointer : Pointer) : Matcher :=
  { m with document := .ofJson m.document.scope.draft (branchDocument document pointer) }

section BranchMatchers

variable {options : MatcherOptions} {extensions : List Extension} {registry : Registry}
  {m : Matcher} {scope : Scope}

lemma draft_eq_of_build (h : Matcher.build options extensions registry document = .ok m) :
    m.document.scope.draft = options.effectiveDraft := by
  rw [(build_eq_ok_iff.1 h).1, scope_ofJson]

lemma build_branchDocument_iff (hbuild : Matcher.build options extensions registry document = .ok m)
    {alone : Matcher} :
    Matcher.build options extensions registry (branchDocument document pointer) = .ok alone
      ↔ alone = aloneOf m document pointer
        ∧ (aloneOf m document pointer).check (branchDocument document pointer) = .ok () := by
  have halone : aloneOf m document pointer
      = ⟨.ofJson options.effectiveDraft (branchDocument document pointer), options.enforcesFormats,
        extensions, registry⟩ := by
    rw [aloneOf, draft_eq_of_build hbuild, (build_eq_ok_iff.1 hbuild).1]
  rw [build_eq_ok_iff, ← halone]
  refine and_congr_right fun halone' => ?_
  rw [halone']

lemma twins_aloneOf (hbuild : Matcher.build options extensions registry document = .ok m)
    (hbranch : document.resolve? pointer = some branch) (hrooted : m.Rooted (scope, branch))
    (halone : (aloneOf m document pointer).Rooted (aloneOf m document pointer).start) :
    Matcher.Twins m (aloneOf m document pointer) (scope, branch)
      (aloneOf m document pointer).start where
  alike := ⟨rfl, rfl, rfl⟩
  draft := by
    have hdraft := rootScope_draft_ofJson m.document.scope.draft (branchDocument document pointer)
    refine Eq.trans ?_ hdraft.symm
    rw [draft_eq_of_build hbuild, (build_eq_ok_iff.1 hbuild).1, rootScope_draft_ofJson]
  rooted := hrooted
  rooted' := halone
  bare := by
    have hroot : (aloneOf m document pointer).start.2
        = Document.kept (branchDocument document pointer) :=
      Document.root_ofJson m.document.scope.draft _
    rw [hroot, bare_kept_branchDocument hbranch]

lemma accepts_iff_judge {alone : Matcher} (hlisted : alone.document.Listed)
    (hroot : alone.document.root.WellFormed) (hrooted : alone.Rooted alone.start)
    (hstraight : alone.Straight alone.start) {steps : ℕ} {value : Json}
    (hsteps : alone.budget value ≤ steps)
    (hagree : alone.judge steps alone.document.scope alone.document.root value
      = m.judge steps scope branch value) :
    alone.accepts value = true ↔ m.judge steps scope branch value = [] := by
  rw [Matcher.accepts, ← Matcher.violations_eq_of_budget_le hlisted hroot hrooted hstraight hsteps,
    hagree, List.isEmpty_iff]

lemma wellFormed_of_resolve? (hwf : document.WellFormed)
    (hbranch : document.resolve? pointer = some branch) : branch.WellFormed := by
  obtain ⟨path, -, hpath⟩ := Option.bind_eq_some_iff.1 hbranch
  exact Json.wellFormed_of_walk? hwf hpath

section Branch

variable (hbuild : Matcher.build options extensions registry document = .ok m)
  (hbranch : document.resolve? pointer = some branch)
  (hrooted : m.Rooted (scope, branch))
  (halone : (aloneOf m document pointer).Rooted (aloneOf m document pointer).start)
  (hunmistaken : Matcher.Unmistaken m (aloneOf m document pointer) (scope, branch))

include hbuild hbranch

lemma isSchema_alone :
    (aloneOf m document pointer).document.scope.draft.isSchema (branchDocument document pointer)
      = m.document.scope.draft.isSchema branch := by
  have hdocument : m.document.scope.draft.isSchema document = true :=
    (Matcher.check_eq_ok_iff.1 (build_eq_ok_iff.1 hbuild).2).1
  rw [aloneOf, scope_ofJson]
  exact isSchema_branchDocument hdocument hbranch

include halone

lemma check_alone_iff (hwf : document.WellFormed) :
    (aloneOf m document pointer).check (branchDocument document pointer) = .ok ()
      ↔ m.document.scope.draft.isSchema branch = true ∧ (aloneOf m document pointer).document.isClosed = true
        ∧ ∀ d, Graph.Leads (aloneOf m document pointer).successors (aloneOf m document pointer).start d →
          (aloneOf m document pointer).isSound d = true := by
  have halonewf := wellFormed_branchDocument hwf hbranch (wellFormed_of_resolve? hwf hbranch)
  rw [← isSchema_alone hbuild hbranch]
  constructor
  · intro hcheck
    obtain ⟨hschema, hclosed, -⟩ := Matcher.check_eq_ok_iff.1 hcheck
    exact ⟨hschema, hclosed, fun d hd =>
      Matcher.sound_of_check rfl halonewf halone.refersFromRoot hcheck hd⟩
  · rintro ⟨hschema, hclosed, hsound⟩
    exact Matcher.check_eq_ok_iff.2 ⟨hschema, hclosed, Matcher.reach_ok hsound _ _⟩

/-- **A branch has a matcher** exactly if it is a schema of the dialect and, as a document with the
definitions it is given, refers to nothing outside itself and meets sound schemas only.  Whether its
references mean what they meant in the document has no part in this. -/
theorem branch_has_matcher_iff (hwf : document.WellFormed) :
    (∃ alone, Matcher.build options extensions registry (branchDocument document pointer) = .ok alone)
      ↔ m.document.scope.draft.isSchema branch = true ∧ (aloneOf m document pointer).document.isClosed = true
        ∧ ∀ d, Graph.Leads (aloneOf m document pointer).successors (aloneOf m document pointer).start d →
          (aloneOf m document pointer).isSound d = true := by
  rw [← check_alone_iff hbuild hbranch halone hwf]
  constructor
  · rintro ⟨alone, hok⟩
    exact ((build_branchDocument_iff hbuild).1 hok).2
  · exact fun hcheck => ⟨_, (build_branchDocument_iff hbuild).2 ⟨rfl, hcheck⟩⟩

include hrooted hunmistaken

/-- A branch whose matcher can be built stands alone. -/
lemma standsAlone_of_check (hwf : document.WellFormed)
    (hcheck : (aloneOf m document pointer).check (branchDocument document pointer) = .ok ()) :
    StandsAlone m (aloneOf m document pointer) (scope, branch) := by
  obtain ⟨hschema, hclosed, hsound⟩ := (check_alone_iff hbuild hbranch halone hwf).1 hcheck
  exact ⟨hschema, hclosed,
    Matcher.soundIn_of_sound (twins_aloneOf hbuild hbranch hrooted halone) hunmistaken hsound⟩

/-- The matcher of a branch that stands alone can be built. -/
lemma check_of_standsAlone (hwf : document.WellFormed)
    (h : StandsAlone m (aloneOf m document pointer) (scope, branch)) :
    (aloneOf m document pointer).check (branchDocument document pointer) = .ok () :=
  (check_alone_iff hbuild hbranch halone hwf).2 ⟨h.isSchema, h.isClosed, fun _ hd =>
    Matcher.sound_of_soundIn (twins_aloneOf hbuild hbranch hrooted halone) hunmistaken h.sound hd⟩

/-- The matcher of a branch that stands alone finds the same wrong as the document at the branch. -/
lemma judge_of_standsAlone (hwf : document.WellFormed)
    (h : StandsAlone m (aloneOf m document pointer) (scope, branch)) (steps : ℕ) (value : Json) :
    (aloneOf m document pointer).judge steps (aloneOf m document pointer).document.scope
        (aloneOf m document pointer).document.root value
      = m.judge steps scope branch value := by
  have hdocument : m.document = Document.ofJson options.effectiveDraft document := by
    rw [(build_eq_ok_iff.1 hbuild).1]
  have hlisted : m.document.Listed := by
    rw [hdocument]
    exact Document.listed_ofJson _ hwf
  have hroot : m.document.root.WellFormed := by
    rw [hdocument, Document.root_ofJson]
    exact Document.wellFormed_kept hwf
  exact (Matcher.judge_eq_of_twins hlisted hroot (twins_aloneOf hbuild hbranch hrooted halone)
    (hunmistaken.sameTargets h.sound) (wellFormed_of_resolve? hwf hbranch) value).symm

end Branch

/-- **A branch stands alone** exactly if it is a schema of the dialect, its references stay within the
document made of it, and none that is met from it is left without a schema there.  Then its matcher
finds the same wrong with every value as the matcher of the document does at the branch, whatever the
steps; so it accepts the same, if it does not go in circles.  References are read against the root of
the document that they are in, and none is mistaken. -/
theorem branch_stands_alone_iff
    (hbuild : Matcher.build options extensions registry document = .ok m)
    (hwf : document.WellFormed) (hbranch : document.resolve? pointer = some branch)
    (hrooted : m.Rooted (scope, branch))
    (halone : (aloneOf m document pointer).Rooted (aloneOf m document pointer).start)
    (hunmistaken : Matcher.Unmistaken m (aloneOf m document pointer) (scope, branch)) :
    (∃ alone, Matcher.build options extensions registry (branchDocument document pointer) = .ok alone
        ∧ (∀ steps value, alone.judge steps alone.document.scope alone.document.root value
          = m.judge steps scope branch value)
        ∧ (alone.Straight alone.start → ∀ value steps, alone.budget value ≤ steps →
          (alone.accepts value = true ↔ m.judge steps scope branch value = [])))
      ↔ StandsAlone m (aloneOf m document pointer) (scope, branch) := by
  constructor
  · rintro ⟨alone, hok, -⟩
    exact standsAlone_of_check hbuild hbranch hrooted halone hunmistaken hwf
      ((build_branchDocument_iff hbuild).1 hok).2
  · intro h
    have hcheck := check_of_standsAlone hbuild hbranch hrooted halone hunmistaken hwf h
    have hagree := judge_of_standsAlone hbuild hbranch hrooted halone hunmistaken hwf h
    refine ⟨_, (build_branchDocument_iff hbuild).2 ⟨rfl, hcheck⟩, hagree, ?_⟩
    intro hstraight value steps hsteps
    have halonewf := wellFormed_branchDocument hwf hbranch (wellFormed_of_resolve? hwf hbranch)
    have hroot : (aloneOf m document pointer).document.root.WellFormed := by
      rw [aloneOf, Document.root_ofJson]
      exact Document.wellFormed_kept halonewf
    exact accepts_iff_judge (Document.listed_ofJson _ halonewf) hroot halone hstraight hsteps
      (hagree steps value)

end BranchMatchers

/-! ## A branch that refers to a property -/

/-- A schema whose branch refers to a property of the document. -/
def danglingSchema : Fragment where
  keywords :=
    [("anyOf", .array [.object [("$ref", .string "#/properties/n"),
        ("transform", .array [.string "t"])]]),
      ("properties", .object [("n", .object [("type", .string "number")])])]

/-- Options with the transform of the schema. -/
def danglingOptions : Options where
  transforms := Table.ofPairs [("t", Transform.ofFunction .ok)]

lemma danglingSchema_wellFormed : danglingSchema.json.WellFormed := by
  simp only [danglingSchema, Fragment.json, Json.WellFormed, Json.MembersWellFormed,
    Json.AllWellFormed, Entries.Sorted, and_true]
  decide

/-- The branch of the schema. -/
def danglingBranch : Json :=
  .object [("$ref", .string "#/properties/n"), ("transform", .array [.string "t"])]

/-- The matcher of the document. -/
def danglingMatcher : Matcher :=
  ⟨.ofJson .draft7 danglingSchema.json, false, [], {}⟩

lemma compile_dangling : compile (Matcher.build {} [] {}) danglingSchema danglingOptions
    = .error (.build (.dangling "#/properties/n")) := by
  have hfault : (match compile (Matcher.build {} [] {}) danglingSchema danglingOptions with
      | .error fault => decide (fault = .build (.dangling "#/properties/n"))
      | .ok _ => false) = true := by
    decide +kernel
  split at hfault
  · rename_i fault hcompile
    rw [hcompile, of_decide_eq_true hfault]
  · simp at hfault

/-- The document can be matched against, and at the branch it accepts what the property accepts, but
the branch has no matcher, and so the schema no plan. -/
theorem danglingSchema_has_no_branch :
    Matcher.build {} [] {} danglingSchema.json = .ok danglingMatcher
      ∧ danglingSchema.json.WellFormed
      ∧ danglingSchema.json.resolve? "/anyOf/0" = some danglingBranch
      ∧ (danglingMatcher.document.rootScope, danglingBranch)
        ∈ danglingMatcher.successors danglingMatcher.start
      ∧ danglingMatcher.violationsOf danglingMatcher.document.rootScope danglingBranch (.int 1) = []
      ∧ (¬ ∃ alone, Matcher.build {} [] {} (branchDocument danglingSchema.json "/anyOf/0")
        = .ok alone)
      ∧ compile (Matcher.build {} [] {}) danglingSchema danglingOptions
        = .error (.build (.dangling "#/properties/n")) := by
  have hfacts : danglingMatcher.check danglingSchema.json = .ok ()
      ∧ danglingSchema.json.resolve? "/anyOf/0" = some danglingBranch
      ∧ (danglingMatcher.document.rootScope, danglingBranch)
        ∈ danglingMatcher.successors danglingMatcher.start
      ∧ danglingMatcher.violationsOf danglingMatcher.document.rootScope danglingBranch (.int 1) = []
      ∧ (aloneOf danglingMatcher danglingSchema.json "/anyOf/0").check
        (branchDocument danglingSchema.json "/anyOf/0") ≠ .ok () := by
    decide +kernel
  obtain ⟨hcheck, hbranch, hmet, haccepts, hfault⟩ := hfacts
  have hbuild : Matcher.build {} [] {} danglingSchema.json = .ok danglingMatcher :=
    build_eq_ok_iff.2 ⟨rfl, hcheck⟩
  refine ⟨hbuild, danglingSchema_wellFormed, hbranch, hmet, haccepts, ?_, compile_dangling⟩
  rintro ⟨alone, halone⟩
  exact hfault ((build_branchDocument_iff hbuild).1 halone).2

/-! ## Branches whose references are mistaken -/

/-- The matcher of a document in draft 7. -/
def plainMatcher (document : Json) : Matcher :=
  ⟨.ofJson .draft7 document, false, [], {}⟩

/-- A branch has a matcher that accepts a value which the document does not accept there. -/
def MistakesAt (document : Json) (pointer : Pointer) (value : Json) : Prop :=
  ∃ alone branch, Matcher.build {} [] {} document = .ok (plainMatcher document)
    ∧ document.resolve? pointer = some branch
    ∧ Matcher.build {} [] {} (branchDocument document pointer) = .ok alone
    ∧ alone.accepts value = true
    ∧ (plainMatcher document).violationsOf (plainMatcher document).document.rootScope branch value ≠ []

lemma mistakesAt_of_checks {value : Json} (hbranch : document.resolve? pointer = some branch)
    (hcheck : (plainMatcher document).check document = .ok ())
    (halone : (aloneOf (plainMatcher document) document pointer).check (branchDocument document pointer) = .ok ())
    (haccepts : (aloneOf (plainMatcher document) document pointer).accepts value = true)
    (hrefuses : (plainMatcher document).violationsOf (plainMatcher document).document.rootScope branch value
      ≠ []) : MistakesAt document pointer value := by
  have hbuild : Matcher.build {} [] {} document = .ok (plainMatcher document) :=
    build_eq_ok_iff.2 ⟨rfl, hcheck⟩
  exact ⟨_, branch, hbuild, hbranch, (build_branchDocument_iff hbuild).2 ⟨rfl, halone⟩, haccepts, hrefuses⟩

/-- A schema that is nested within itself by a branch: what the branch calls the root is the root of
the document, not the branch. -/
def nestedSchema : Json :=
  .object [("anyOf", .array [.object [("items", .object [("$ref", .string "#")])],
      .object [("type", .string "number")]]),
    ("maxItems", .int 1)]

/-- A schema with a branch that has a definition of its own, of a name that the document defines too. -/
def shadowedSchema : Json :=
  .object [("anyOf", .array [.object
      [("definitions", .object [("r", .object [("type", .string "string")])]),
        ("items", .object [("$ref", .string "#/definitions/r")])]]),
    ("definitions", .object [("r", .object [("type", .string "number")])])]

/-- That no reference is mistaken has to be asked for.  The branch that refers to the root has a
matcher, but one that takes the branch for the root: it accepts a list of long lists, which the document
does not accept at the branch.  And the branch with a definition of its own takes that for the one of the
document. -/
theorem branches_mistake_references :
    MistakesAt nestedSchema "/anyOf/0" (.array [.array [.int 0, .int 0]])
      ∧ MistakesAt shadowedSchema "/anyOf/0" (.array [.string "x"]) := by
  constructor
  · exact mistakesAt_of_checks rfl (by decide +kernel) (by decide +kernel) (by decide +kernel)
      (by decide +kernel)
  · exact mistakesAt_of_checks rfl (by decide +kernel) (by decide +kernel) (by decide +kernel)
      (by decide +kernel)

/-! ## A branch that refers to a definition -/

/-- A schema whose branch refers to a definition of the document. -/
def sharedDocument : Json :=
  .object [("anyOf", .array [.object [("$ref", .string "#/definitions/r")]]),
    ("definitions", .object [("r", .object [("type", .string "number")])])]

/-- The branch of the schema. -/
def sharedBranch : Json :=
  .object [("$ref", .string "#/definitions/r")]

/-- The matcher of the document. -/
def sharedMatcher : Matcher :=
  ⟨.ofJson .draft7 sharedDocument, false, [], {}⟩

/-- What can be met from the branch. -/
def sharedPlaces : List Matcher.Place :=
  [(sharedMatcher.document.rootScope, sharedBranch),
    (sharedMatcher.document.rootScope, .object [("type", .string "number")])]

/-- The matcher of the branch. -/
def sharedAlone : Matcher :=
  aloneOf sharedMatcher sharedDocument "/anyOf/0"

/-- What can be met from the branch as a document of its own. -/
def sharedAlonePlaces : List Matcher.Place :=
  [sharedAlone.start, (sharedAlone.document.rootScope, .object [("type", .string "number")])]

lemma sharedDocument_wellFormed : sharedDocument.WellFormed := by
  simp only [sharedDocument, Json.WellFormed, Json.MembersWellFormed, Json.AllWellFormed,
    Entries.Sorted, and_true]
  decide

lemma shared_facts : sharedMatcher.check sharedDocument = .ok ()
    ∧ sharedDocument.resolve? "/anyOf/0" = some sharedBranch
    ∧ sharedMatcher.document.scope.draft.isSchema sharedBranch = true
    ∧ sharedAlone.document.isClosed = true := by
  decide +kernel

/-- The branch leads to its places only, which are rooted and sound, and their references lead to the
same in both documents. -/
lemma sharedPlaces_facts : ∀ place ∈ sharedPlaces,
    sharedMatcher.successors place ⊆ sharedPlaces
      ∧ place.inner = sharedMatcher.document.rootScope
      ∧ sharedMatcher.isSound place = true
      ∧ ∀ text ∈ sharedMatcher.texts place,
        (sharedMatcher.document.resolve? sharedMatcher.document.rootScope text).map
            (fun target => bare target.value) = some (.object [("type", .string "number")])
          ∧ (sharedAlone.document.resolve? sharedAlone.document.rootScope text).map
            (fun target => bare target.value) = some (.object [("type", .string "number")]) := by
  decide +kernel

lemma sharedAlonePlaces_facts : ∀ place ∈ sharedAlonePlaces,
    sharedAlone.successors place ⊆ sharedAlonePlaces
      ∧ place.inner = sharedAlone.document.rootScope := by
  decide +kernel

lemma build_shared : Matcher.build {} [] {} sharedDocument = .ok sharedMatcher :=
  build_eq_ok_iff.2 ⟨rfl, shared_facts.1⟩

lemma mem_sharedPlaces {met : Matcher.Place} (h : Graph.Leads sharedMatcher.successors
    (sharedMatcher.document.rootScope, sharedBranch) met) : met ∈ sharedPlaces :=
  Graph.mem_of_leads (fun place hplace => (sharedPlaces_facts place hplace).1)
    List.mem_cons_self h

lemma rooted_shared : sharedMatcher.Rooted (sharedMatcher.document.rootScope, sharedBranch) :=
  fun _ _ hmet => (sharedPlaces_facts _ (mem_sharedPlaces hmet)).2.1

lemma rooted_sharedAlone : sharedAlone.Rooted sharedAlone.start := by
  intro scope keywords hmet
  have hmem : (scope, .object keywords) ∈ sharedAlonePlaces :=
    Graph.mem_of_leads (fun place hplace => (sharedAlonePlaces_facts place hplace).1)
      List.mem_cons_self hmet
  exact (sharedAlonePlaces_facts _ hmem).2

lemma unmistaken_shared : Matcher.Unmistaken sharedMatcher sharedAlone
    (sharedMatcher.document.rootScope, sharedBranch) := by
  intro met hmet text htext
  obtain ⟨htarget, hother⟩ := (sharedPlaces_facts met (mem_sharedPlaces hmet)).2.2.2 text htext
  obtain ⟨target, htarget, hbare⟩ := Option.map_eq_some_iff.1 htarget
  refine ⟨target, htarget, fun other hresolve => ?_⟩
  rw [hresolve, Option.map_some] at hother
  rw [hbare, Option.some.inj hother]

lemma standsAlone_shared : StandsAlone sharedMatcher sharedAlone
    (sharedMatcher.document.rootScope, sharedBranch) where
  isSchema := shared_facts.2.2.1
  isClosed := shared_facts.2.2.2
  sound := by
    intro met hmet
    obtain ⟨-, -, hsound, htexts⟩ := sharedPlaces_facts met (mem_sharedPlaces hmet)
    refine ⟨hsound, fun text htext => ?_⟩
    obtain ⟨other, hother, -⟩ := Option.map_eq_some_iff.1 (htexts text htext).2
    rw [hother]
    rfl

/-- The branch of the schema stands alone. -/
theorem sharedDocument_branch_stands_alone :
    Matcher.build {} [] {} sharedDocument = .ok sharedMatcher
      ∧ sharedDocument.WellFormed
      ∧ sharedDocument.resolve? "/anyOf/0" = some sharedBranch
      ∧ sharedMatcher.Rooted (sharedMatcher.document.rootScope, sharedBranch)
      ∧ sharedAlone.Rooted sharedAlone.start
      ∧ Matcher.Unmistaken sharedMatcher sharedAlone
        (sharedMatcher.document.rootScope, sharedBranch)
      ∧ ∃ alone, Matcher.build {} [] {} (branchDocument sharedDocument "/anyOf/0") = .ok alone
        ∧ (∀ steps value, alone.judge steps alone.document.scope alone.document.root value
          = sharedMatcher.judge steps sharedMatcher.document.rootScope sharedBranch value)
        ∧ (alone.Straight alone.start → ∀ value steps, alone.budget value ≤ steps →
          (alone.accepts value = true
            ↔ sharedMatcher.judge steps sharedMatcher.document.rootScope sharedBranch value = [])) := by
  have hbranch := shared_facts.2.1
  exact ⟨build_shared, sharedDocument_wellFormed, hbranch, rooted_shared, rooted_sharedAlone,
    unmistaken_shared, (branch_stands_alone_iff build_shared sharedDocument_wellFormed hbranch
      rooted_shared rooted_sharedAlone unmistaken_shared).2 standsAlone_shared⟩

end Plan

end SchemaAlgebra
