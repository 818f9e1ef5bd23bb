import SchemaAlgebra.Proofs.Acceptance
import SchemaAlgebra.Proofs.Compilation
import SchemaAlgebra.Proofs.Locations

/-!
# What a checked document can lead matching to

From a schema, matching goes on to the schemas that its keywords apply and to those that its
references name (`Matcher.successors`).  The check of a document follows each reference once, so a
schema that a reference leads to again is not looked at again, and the check has a budget.

* `Matcher.Lead` — what one keyword leads to; both the check and matching are read off it.
* `Matcher.exists_gives_of_mem_schemasApplied` — which keyword an applied schema is written under.
* `Matcher.reach_ok` — the check succeeds if every schema in reach is sound.
* `Matcher.sound_of_check` — conversely, if the check of a document has succeeded, every schema that
  matching can come to is sound.  What the check has followed is closed under parts, up to references
  that it has followed too (`Matcher.Checked`), and the budget lasts: between two references a way
  goes down the document, and no reference is followed twice.
-/

namespace SchemaAlgebra

namespace Matcher

/-! ## Leads -/

/-- What a keyword of a schema leads matching to. -/
inductive Lead where
  | fault (fault : ArgumentFault)
  | nothing
  | reference (text : String)
  | schemas (patterns : List String) (schemas : List Json)

/-- The lead of a keyword among others. -/
def lead (m : Matcher) (draft : Draft) (keywords : Entries Json) (entry : String × Json) : Lead :=
  match Assertion.read? m.registry m.extensions keywords entry.1 entry.2 with
  | some (.error fault) => .fault fault
  | some (.ok _) => .nothing
  | none =>
    if (draft.shape? entry.1).isNone then .nothing
    else
      match entry.1, entry.2 with
      | "$ref", .string text => .reference text
      | keyword, argument =>
        .schemas (patternsUsed keywords keyword argument) (schemasApplied keywords keyword argument)

variable {m : Matcher}

lemma reachKeyword_eq {reach : Followed → Scope → Json → Except BuildFault Followed} {scope : Scope}
    {keywords : Entries Json} {followed : Followed} {entry : String × Json} :
    m.reachKeyword reach scope keywords followed entry
      = match m.lead scope.draft keywords entry with
        | .fault fault => .error (.argument fault)
        | .nothing => .ok followed
        | .reference text =>
          if (scope.base, text) ∈ followed then .ok followed
          else
            (match m.document.resolve? scope text with
            | none => .error (.dangling text)
            | some target => reach ((scope.base, text) :: followed) target.scope target.value)
        | .schemas patterns schemas =>
          checkPatterns patterns >>= fun _ =>
            schemas.foldlM (fun followed => reach followed scope) followed := by
  obtain ⟨keyword, argument⟩ := entry
  simp only [reachKeyword, lead]
  cases Assertion.read? m.registry m.extensions keywords keyword argument with
  | some result => cases result <;> rfl
  | none =>
    cases (scope.draft.shape? keyword).isNone with
    | true => rfl
    | false =>
      simp only [Bool.false_eq_true, if_false]
      split
      · rfl
      · split <;> simp_all

/-- A schema in the scope that it is met in. -/
abbrev Place := Scope × Json

/-- The scope inside the schema. -/
def Place.inner (place : Place) : Scope :=
  match place.2 with
  | .object keywords => place.1.enter keywords
  | _ => place.1

/-- The leads of the keywords of a schema. -/
def leads (m : Matcher) (place : Place) : List Lead :=
  match place.2 with
  | .object keywords =>
    (effectiveKeywords place.inner.draft keywords).map (m.lead place.inner.draft keywords)
  | _ => []

/-- The schemas that a schema applies. -/
def parts (m : Matcher) (place : Place) : List Place :=
  (m.leads place).flatMap fun
    | .schemas _ schemas => schemas.map fun schema => (place.inner, schema)
    | _ => []

/-- The references of a schema. -/
def texts (m : Matcher) (place : Place) : List String :=
  (m.leads place).filterMap fun
    | .reference text => some text
    | _ => none

/-- What the references of a schema name. -/
def targets (m : Matcher) (place : Place) : List Place :=
  (m.texts place).flatMap fun text =>
    (m.document.resolve? place.inner text).toList.map fun target => (target.scope, target.value)

/-- **The schemas that matching goes on to** from a schema. -/
def successors (m : Matcher) (place : Place) : List Place :=
  m.parts place ++ m.targets place

/-- The document as a place to start from. -/
def start (m : Matcher) : Place :=
  (m.document.scope, m.document.root)

/-- Whether the check has nothing to say against a lead. -/
def Lead.isSound (m : Matcher) (scope : Scope) : Lead → Bool
  | .fault _ => false
  | .nothing => true
  | .reference text => (m.document.resolve? scope text).isSome
  | .schemas patterns _ => decide (checkPatterns patterns = .ok ())

/-- Whether the check has nothing to say against a schema alone. -/
def isSound (m : Matcher) (place : Place) : Bool :=
  (place.2.isObject || (place.2.bool?).isSome) && (m.leads place).all (Lead.isSound m place.inner)

lemma mem_parts {place part : Place} : part ∈ m.parts place
    ↔ ∃ patterns schemas, Lead.schemas patterns schemas ∈ m.leads place
      ∧ part.2 ∈ schemas ∧ part.1 = place.inner := by
  simp only [parts, List.mem_flatMap]
  constructor
  · rintro ⟨lead, hlead, hpart⟩
    cases lead with
    | schemas patterns schemas =>
      obtain ⟨schema, hschema, rfl⟩ := List.mem_map.1 hpart
      exact ⟨patterns, schemas, hlead, hschema, rfl⟩
    | _ => simp at hpart
  · rintro ⟨patterns, schemas, hlead, hpart, hscope⟩
    refine ⟨_, hlead, List.mem_map.2 ⟨part.2, hpart, ?_⟩⟩
    rw [← hscope]

lemma mem_texts {place : Place} {text : String} :
    text ∈ m.texts place ↔ Lead.reference text ∈ m.leads place := by
  simp only [texts, List.mem_filterMap]
  constructor
  · rintro ⟨lead, hlead, htext⟩
    cases lead with
    | reference other =>
      obtain rfl := Option.some.inj htext
      exact hlead
    | _ => simp at htext
  · exact fun h => ⟨_, h, rfl⟩

lemma mem_targets {place target : Place} : target ∈ m.targets place
    ↔ ∃ text ∈ m.texts place, ∃ location, m.document.resolve? place.inner text = some location
      ∧ target = (location.scope, location.value) := by
  simp only [targets, List.mem_flatMap, List.mem_map, Option.mem_toList]
  constructor
  · rintro ⟨text, htext, location, hlocation, rfl⟩
    exact ⟨text, htext, location, hlocation, rfl⟩
  · rintro ⟨text, htext, location, hlocation, rfl⟩
    exact ⟨text, htext, location, hlocation, rfl⟩

lemma leads_of_not_object {place : Place} (h : place.2.isObject = false) : m.leads place = [] := by
  unfold leads
  split
  · rename_i keywords hkeywords
    simp [hkeywords, Json.isObject] at h
  · rfl

/-! ## Sound schemas pass the check -/

lemma exists_foldlM_ok {ε σ α : Type} {f : σ → α → Except ε σ} {items : List α}
    (h : ∀ a ∈ items, ∀ s, ∃ t, f s a = .ok t) (s : σ) : ∃ t, items.foldlM f s = .ok t := by
  induction items generalizing s with
  | nil => exact ⟨s, rfl⟩
  | cons a items ih =>
    obtain ⟨t, ht⟩ := h a List.mem_cons_self s
    obtain ⟨r, hr⟩ := ih (fun b hb => h b (List.mem_cons_of_mem _ hb)) t
    exact ⟨r, bind_eq_ok.2 ⟨t, ht, hr⟩⟩

lemma reach_object {steps : ℕ} {followed : Followed} {scope : Scope} {keywords : Entries Json} :
    m.reach (steps + 1) followed scope (.object keywords)
      = (effectiveKeywords (scope.enter keywords).draft keywords).foldlM
        (m.reachKeyword (m.reach steps) (scope.enter keywords) keywords) followed := rfl

lemma reach_ok {place : Place} (h : ∀ other, Graph.Leads m.successors place other →
    m.isSound other = true) (steps : ℕ) (followed : Followed) :
    ∃ result, m.reach steps followed place.1 place.2 = .ok result := by
  induction steps generalizing place followed with
  | zero => exact ⟨followed, rfl⟩
  | succ steps ih =>
    -- what is in reach of a successor is in reach of the place
    have hgo : ∀ next ∈ m.successors place, ∀ followed,
        ∃ result, m.reach steps followed next.1 next.2 = .ok result := fun next hnext followed =>
      ih (fun other hother => h other (Relation.ReflTransGen.head hnext hother)) followed
    have hsound := h place Relation.ReflTransGen.refl
    rw [isSound, Bool.and_eq_true, List.all_eq_true] at hsound
    obtain ⟨hshape, hsound⟩ := hsound
    obtain ⟨scope, schema⟩ := place
    cases schema with
    | bool b => exact ⟨followed, rfl⟩
    | object keywords =>
      rw [reach_object]
      refine exists_foldlM_ok (fun entry hentry followed => ?_) followed
      have hlead : m.lead (scope.enter keywords).draft keywords entry
          ∈ m.leads (scope, .object keywords) := List.mem_map_of_mem hentry
      have hentrySound := hsound _ hlead
      rw [reachKeyword_eq]
      cases hcase : m.lead (scope.enter keywords).draft keywords entry with
      | fault fault => simp [hcase, Lead.isSound] at hentrySound
      | nothing => exact ⟨followed, rfl⟩
      | reference text =>
        rw [hcase] at hlead hentrySound
        dsimp only
        split
        · exact ⟨followed, rfl⟩
        · obtain ⟨target, htarget⟩ := Option.isSome_iff_exists.1 hentrySound
          have htarget' : m.document.resolve? (scope.enter keywords) text = some target := htarget
          rw [htarget']
          exact hgo (target.scope, target.value) (List.mem_append_right _
            (mem_targets.2 ⟨text, mem_texts.2 hlead, target, htarget, rfl⟩)) _
      | schemas patterns schemas =>
        rw [hcase] at hlead hentrySound
        obtain ⟨result, hresult⟩ := exists_foldlM_ok
          (f := fun followed => m.reach steps followed (scope.enter keywords))
          (fun schema hschema followed => hgo (scope.enter keywords, schema) (List.mem_append_left _
            (mem_parts.2 ⟨patterns, schemas, hlead, hschema, rfl⟩)) followed) followed
        exact ⟨result, bind_eq_ok.2 ⟨(), of_decide_eq_true hentrySound, hresult⟩⟩
    | _ => simp [Json.isObject, Json.bool?] at hshape

/-! ## What a keyword applies lies inside the schema -/

/-- A value is the argument of a keyword, or directly inside one. -/
inductive Argues (keywords : Entries Json) : Json → Prop
  | argument {keyword value} : Entries.lookup keyword keywords = some value → Argues keywords value
  | item {keyword items value} : Entries.lookup keyword keywords = some (.array items) →
      value ∈ items → Argues keywords value
  | member {keyword members name value} :
      Entries.lookup keyword keywords = some (.object members) → (name, value) ∈ members →
      Argues keywords value

lemma Argues.depth_lt {keywords : Entries Json} {value : Json} (h : Argues keywords value) :
    value.depth < (Json.object keywords).depth := by
  cases h with
  | argument hlookup => exact Nat.lt_succ_of_le (Json.depth_le_of_lookup hlookup)
  | item hlookup hitem =>
    exact Nat.lt_trans (Nat.lt_succ_of_le (Json.depth_le_of_mem_items hitem))
      (Nat.lt_succ_of_le (Json.depth_le_of_lookup hlookup))
  | member hlookup hmember =>
    exact Nat.lt_trans (Nat.lt_succ_of_le (Json.depth_le_of_mem_members hmember))
      (Nat.lt_succ_of_le (Json.depth_le_of_lookup hlookup))

lemma Argues.exists_walk? {keywords : Entries Json} {value : Json} (h : Argues keywords value)
    (hwf : (Json.object keywords).WellFormed) :
    ∃ path, (Json.object keywords).walk? path = some value := by
  cases h with
  | @argument keyword _ hlookup =>
    refine ⟨[keyword], ?_⟩
    rw [Json.walk?_object hlookup, Json.walk?_nil]
  | @item keyword items _ hlookup hitem =>
    obtain ⟨index, hindex⟩ := List.mem_iff_getElem?.1 hitem
    refine ⟨[keyword, Pointer.indexToken index], ?_⟩
    rw [Json.walk?_object hlookup, Json.walk?_array hindex, Json.walk?_nil]
  | @member keyword members name _ hlookup hmember =>
    have hmembers := Json.wellFormed_of_mem_members hwf.2 (Entries.mem_of_lookup hlookup)
    refine ⟨[keyword, name], ?_⟩
    rw [Json.walk?_object hlookup, Json.walk?_object (Entries.lookup_of_mem hmembers.1 hmember),
      Json.walk?_nil]

/-! ### Which keyword gives an applied schema -/

/-- A schema is the argument of a keyword, an item of it or a member of it, as the keyword has it. -/
inductive Gives (keywords : Entries Json) (schema : Json) : String → Prop
  | single {keyword} : keyword ∈ Json.singleKeywords →
      (keyword ∈ Json.listKeywords → schema.isArray = false) →
      Entries.lookup keyword keywords = some schema → Gives keywords schema keyword
  | listed {keyword schemas} : keyword ∈ Json.listKeywords →
      Entries.lookup keyword keywords = some (.array schemas) → schema ∈ schemas →
      Gives keywords schema keyword
  | named {keyword schemas name} : keyword ∈ Json.mapKeywords →
      Entries.lookup keyword keywords = some (.object schemas) → (name, schema) ∈ schemas →
      Gives keywords schema keyword

/-- Keywords that speak for what stands beneath others. -/
def applyingOthers : List (String × String) :=
  [("additionalProperties", "properties"), ("additionalProperties", "patternProperties"),
    ("if", "then"), ("if", "else")]

lemma isArray_eq_false {value : Json} (h : ∀ items, value ≠ .array items) : value.isArray = false := by
  cases value with
  | array items => exact absurd rfl (h items)
  | _ => rfl

section Gives

variable {keywords : Entries Json} {keyword : String} {argument schema : Json}

lemma Gives.argues (h : Gives keywords schema keyword) : Argues keywords schema := by
  cases h with
  | single _ _ hlookup => exact .argument hlookup
  | listed _ hlookup hmem => exact .item hlookup hmem
  | named _ hlookup hmem => exact .member hlookup hmem

lemma Gives.exists_lookup (h : Gives keywords schema keyword) :
    ∃ argument, Entries.lookup keyword keywords = some argument := by
  cases h with
  | single _ _ hlookup => exact ⟨_, hlookup⟩
  | listed _ hlookup _ => exact ⟨_, hlookup⟩
  | named _ hlookup _ => exact ⟨_, hlookup⟩

lemma Gives.of_mem_values {schemas : Entries Json} (hkeyword : keyword ∈ Json.mapKeywords)
    (hlookup : Entries.lookup keyword keywords = some (.object schemas))
    (h : schema ∈ schemas.map Prod.snd) : Gives keywords schema keyword := by
  obtain ⟨⟨name, schema⟩, hmem, rfl⟩ := List.mem_map.1 h
  exact .named hkeyword hlookup hmem

lemma Gives.of_mem_schemasUnder (hkeyword : keyword ∈ Json.mapKeywords)
    (h : schema ∈ (schemasUnder keyword keywords).map Prod.snd) : Gives keywords schema keyword := by
  obtain ⟨⟨name, schema⟩, hentry, rfl⟩ := List.mem_map.1 h
  obtain ⟨schemas, hlookup, hmem⟩ := exists_of_mem_schemasUnder hentry
  exact .named hkeyword hlookup hmem

/-- **Where an applied schema comes from**: the keyword itself, or one that it speaks for. -/
lemma exists_gives_of_mem_schemasApplied (hlookup : Entries.lookup keyword keywords = some argument)
    (h : schema ∈ schemasApplied keywords keyword argument) :
    ∃ head, Gives keywords schema head ∧ (head = keyword ∨ (keyword, head) ∈ applyingOthers) := by
  have hself : Gives keywords schema keyword → ∃ head, Gives keywords schema head
      ∧ (head = keyword ∨ (keyword, head) ∈ applyingOthers) := fun hgives => ⟨_, hgives, Or.inl rfl⟩
  have hsingle : keyword ∈ Json.singleKeywords → keyword ∉ Json.listKeywords → schema = argument →
      Gives keywords schema keyword := by
    rintro hkeyword hlist rfl
    exact .single hkeyword (fun h => absurd h hlist) hlookup
  have hoptional : ∀ other ∈ ["then", "else"], schema ∈ (Entries.lookup other keywords).toList →
      Gives keywords schema other := fun other hother hmem =>
    have hplain : ∀ other ∈ ["then", "else"], other ∈ Json.singleKeywords
        ∧ other ∉ Json.listKeywords := by decide
    .single (hplain other hother).1 (fun h => absurd h (hplain other hother).2) (Option.mem_toList.1 hmem)
  unfold schemasApplied at h
  split at h
  · exact hself (.listed (by decide) hlookup h)
  · exact hself (.listed (by decide) hlookup h)
  · exact hself (.listed (by decide) hlookup h)
  · exact hself (hsingle (by decide) (by decide) (List.mem_singleton.1 h))
  · exact hself (hsingle (by decide) (by decide) (List.mem_singleton.1 h))
  · exact hself (hsingle (by decide) (by decide) (List.mem_singleton.1 h))
  · split at h
    · rcases List.mem_append.1 h with h | h
      · rcases List.mem_cons.1 h with h | h
        · exact hself (hsingle (by decide) (by decide) h)
        · exact ⟨_, hoptional _ (by decide) h, Or.inr (by decide)⟩
      · exact ⟨_, hoptional _ (by decide) h, Or.inr (by decide)⟩
    · simp at h
  · exact hself (.listed (by decide) hlookup h)
  · exact hself (.listed (by decide) hlookup h)
  · rename_i harray
    obtain rfl := List.mem_singleton.1 h
    exact hself (.single (by decide) (fun _ => isArray_eq_false harray) hlookup)
  · split at h
    · exact hself (hsingle (by decide) (by decide) (List.mem_singleton.1 h))
    · simp at h
  · split at h
    · simp at h
    · exact hself (.of_mem_values (by decide) hlookup h)
  · split at h
    · simp at h
    · exact hself (.of_mem_values (by decide) hlookup h)
  · split at h
    · rcases List.mem_append.1 h with h | h
      · rcases List.mem_append.1 h with h | h
        · exact ⟨_, .of_mem_schemasUnder (by decide) h, Or.inr (by decide)⟩
        · exact ⟨_, .of_mem_schemasUnder (by decide) h, Or.inr (by decide)⟩
      · exact hself (hsingle (by decide) (by decide) (List.mem_singleton.1 h))
    · simp at h
  · exact hself (.of_mem_values (by decide) hlookup (List.mem_filter.1 h).1)
  · exact hself (.of_mem_values (by decide) hlookup (List.mem_filter.1 h).1)
  · simp at h

end Gives

lemma argues_of_mem_schemasApplied {keywords : Entries Json} {keyword : String}
    {argument value : Json} (hlookup : Entries.lookup keyword keywords = some argument)
    (h : value ∈ schemasApplied keywords keyword argument) : Argues keywords value := by
  obtain ⟨head, hgives, -⟩ := exists_gives_of_mem_schemasApplied hlookup h
  exact hgives.argues

/-! ## Reading leads -/

lemma mem_of_mem_effectiveKeywords {draft : Draft} {keywords : Entries Json} {entry : String × Json}
    (h : entry ∈ effectiveKeywords draft keywords) : entry ∈ keywords := by
  unfold effectiveKeywords at h
  split at h
  · exact (List.mem_filter.1 h).1
  · exact h

/-- A keyword is at fault, leads nowhere, makes a reference or applies schemas. -/
lemma lead_cases (m : Matcher) (draft : Draft) (keywords : Entries Json) (entry : String × Json) :
    (∃ fault, m.lead draft keywords entry = .fault fault) ∨ m.lead draft keywords entry = .nothing
      ∨ (∃ text, entry = ("$ref", .string text) ∧ m.lead draft keywords entry = .reference text)
      ∨ m.lead draft keywords entry = .schemas (patternsUsed keywords entry.1 entry.2)
        (schemasApplied keywords entry.1 entry.2) := by
  obtain ⟨keyword, argument⟩ := entry
  unfold lead
  split
  · exact Or.inl ⟨_, rfl⟩
  · exact Or.inr (Or.inl rfl)
  · split
    · exact Or.inr (Or.inl rfl)
    · dsimp only
      split
      · exact Or.inr (Or.inr (Or.inl ⟨_, rfl, rfl⟩))
      · exact Or.inr (Or.inr (Or.inr rfl))

lemma eq_of_lead_reference {draft : Draft} {keywords : Entries Json} {entry : String × Json}
    {text : String} (h : m.lead draft keywords entry = .reference text) :
    entry = ("$ref", .string text) := by
  rcases m.lead_cases draft keywords entry with
    ⟨fault, hlead⟩ | hlead | ⟨other, hentry, hlead⟩ | hlead <;> rw [hlead] at h
  · simp at h
  · simp at h
  · rw [hentry, Lead.reference.inj h]
  · simp at h

lemma eq_of_lead_schemas {draft : Draft} {keywords : Entries Json} {entry : String × Json}
    {patterns : List String} {schemas : List Json}
    (h : m.lead draft keywords entry = .schemas patterns schemas) :
    schemas = schemasApplied keywords entry.1 entry.2 := by
  rcases m.lead_cases draft keywords entry with
    ⟨fault, hlead⟩ | hlead | ⟨other, hentry, hlead⟩ | hlead <;> rw [hlead] at h
  · simp at h
  · simp at h
  · simp at h
  · exact (Lead.schemas.inj h).2.symm

lemma mem_leads_object {scope : Scope} {keywords : Entries Json} {lead : Lead} :
    lead ∈ m.leads (scope, .object keywords)
      ↔ ∃ entry ∈ effectiveKeywords (scope.enter keywords).draft keywords,
        m.lead (scope.enter keywords).draft keywords entry = lead :=
  List.mem_map

lemma exists_object_of_mem_leads {place : Place} {lead : Lead} (h : lead ∈ m.leads place) :
    ∃ keywords, place.2 = .object keywords := by
  unfold leads at h
  split at h
  · rename_i keywords hkeywords
    exact ⟨keywords, hkeywords⟩
  · simp at h

lemma argues_of_mem_parts {scope : Scope} {keywords : Entries Json} {part : Place}
    (hsorted : keywords.Sorted) (h : part ∈ m.parts (scope, .object keywords)) :
    Argues keywords part.2 := by
  obtain ⟨patterns, schemas, hlead, hpart, -⟩ := mem_parts.1 h
  obtain ⟨⟨keyword, argument⟩, hentry, hlead⟩ := mem_leads_object.1 hlead
  rw [eq_of_lead_schemas hlead] at hpart
  exact argues_of_mem_schemasApplied
    (Entries.lookup_of_mem hsorted (mem_of_mem_effectiveKeywords hentry)) hpart

lemma reference?_of_mem_texts {scope : Scope} {keywords : Entries Json} {text : String}
    (hsorted : keywords.Sorted) (h : text ∈ m.texts (scope, .object keywords)) :
    Draft.reference? keywords = some text := by
  obtain ⟨entry, hentry, hlead⟩ := mem_leads_object.1 (mem_texts.1 h)
  obtain rfl := eq_of_lead_reference hlead
  rw [Draft.reference?, Entries.lookup_of_mem hsorted (mem_of_mem_effectiveKeywords hentry)]
  rfl

/-! ## Checked documents -/

/-- **One root.**  No schema that matching can come to from a place sets a dialect or a base of its
own, so each reads its references against the root of the document. -/
def Rooted (m : Matcher) (place : Place) : Prop :=
  ∀ scope keywords, Graph.Leads m.successors place (scope, .object keywords) →
    scope.enter keywords = m.document.rootScope

/-- Where references matter, there is one root: each schema that matching can come to from a place and
that makes a reference reads it against the root of the document. -/
def RefersFromRoot (m : Matcher) (place : Place) : Prop :=
  ∀ scope keywords, Graph.Leads m.successors place (scope, .object keywords) →
    m.texts (scope, .object keywords) ≠ [] → scope.enter keywords = m.document.rootScope

lemma Rooted.refersFromRoot {place : Place} (h : m.Rooted place) : m.RefersFromRoot place :=
  fun scope keywords hplace _ => h scope keywords hplace

/-- A schema and its parts, at any depth, are sound, and their references have been followed. -/
def Checked (m : Matcher) (followed : Followed) (place : Place) : Prop :=
  ∀ part, Graph.Leads m.parts place part → m.isSound part = true
    ∧ ∀ text ∈ m.texts part, (m.document.rootScope.base, text) ∈ followed

/-- What a reference names has been checked. -/
def Settled (m : Matcher) (followed : Followed) (text : String) : Prop :=
  ∃ target, m.document.resolve? m.document.rootScope text = some target
    ∧ m.Checked followed (target.scope, target.value)

/-- The check goes on from some followed references to more, which are settled then. -/
def Extends (m : Matcher) (before after : Followed) : Prop :=
  before ⊆ after ∧ ∀ text, (m.document.rootScope.base, text) ∈ after →
    (m.document.rootScope.base, text) ∈ before ∨ m.Settled after text

lemma Checked.mono {before after : Followed} {place : Place} (h : m.Checked before place)
    (hsubset : before ⊆ after) : m.Checked after place :=
  fun part hpart => ⟨(h part hpart).1, fun text htext => hsubset ((h part hpart).2 text htext)⟩

lemma Settled.mono {before after : Followed} {text : String} (h : m.Settled before text)
    (hsubset : before ⊆ after) : m.Settled after text := by
  obtain ⟨target, htarget, hchecked⟩ := h
  exact ⟨target, htarget, hchecked.mono hsubset⟩

lemma extends_refl (followed : Followed) : m.Extends followed followed :=
  ⟨fun _ h => h, fun _ h => Or.inl h⟩

lemma Extends.trans {a b c : Followed} (hab : m.Extends a b) (hbc : m.Extends b c) :
    m.Extends a c := by
  refine ⟨fun key hkey => hbc.1 (hab.1 hkey), fun text htext => ?_⟩
  rcases hbc.2 text htext with h | h
  · exact (hab.2 text h).imp id fun hsettled => hsettled.mono hbc.1
  · exact Or.inr h

/-- What a step does and what it achieves adds up over a list. -/
lemma of_foldlM_ok {ε σ α : Type} {f : σ → α → Except ε σ} {R : σ → σ → Prop} {P : σ → α → Prop}
    {items : List α} (hrefl : ∀ s, R s s) (htrans : ∀ r s t, R r s → R s t → R r t)
    (hmono : ∀ s t a, R s t → P s a → P t a) {s : σ}
    (hstep : ∀ a ∈ items, ∀ r t, R s r → f r a = .ok t → R r t ∧ P t a) {t : σ}
    (h : items.foldlM f s = .ok t) : R s t ∧ ∀ a ∈ items, P t a := by
  induction items generalizing s with
  | nil =>
    obtain rfl : s = t := Except.ok.inj h
    exact ⟨hrefl s, by simp⟩
  | cons a items ih =>
    obtain ⟨r, hr, hrest⟩ := bind_eq_ok.1 h
    obtain ⟨hsr, hP⟩ := hstep a List.mem_cons_self s r (hrefl s) hr
    obtain ⟨hrt, hall⟩ := ih (fun b hb q t hq => hstep b (List.mem_cons_of_mem _ hb) q t
      (htrans _ _ _ hsr hq)) hrest
    refine ⟨htrans _ _ _ hsr hrt, fun b hb => ?_⟩
    rcases List.mem_cons.1 hb with rfl | hb
    · exact hmono _ _ _ hrt hP
    · exact hall b hb

/-- A value is somewhere in the document. -/
def Occurs (m : Matcher) (value : Json) : Prop :=
  ∃ path, m.document.root.walk? path = some value

/-- The references anywhere in the document. -/
def allTexts (m : Matcher) : List String :=
  m.document.root.paths.filterMap fun path =>
    ((m.document.root.walk? path).bind Json.members?).bind Draft.reference?

/-- How many references have not been followed. -/
def unfollowed (m : Matcher) (followed : Followed) : ℕ :=
  (m.allTexts.filter fun text => !followed.contains (m.document.rootScope.base, text)).length

lemma depth_le_of_walk? {value below : Json} {path : List String}
    (h : value.walk? path = some below) : below.depth ≤ value.depth := by
  induction path generalizing value with
  | nil => exact Option.some.inj h ▸ Nat.le_refl _
  | cons token path ih =>
    rw [Json.walk?_cons] at h
    obtain ⟨next, hnext, hrest⟩ := Option.bind_eq_some_iff.1 h
    exact Nat.le_trans (ih hrest) (Nat.le_of_lt (Json.depth_lt_of_step? hnext))

lemma Occurs.part {scope : Scope} {keywords : Entries Json} {part : Place}
    (hwf : m.document.root.WellFormed) (h : m.Occurs (.object keywords))
    (hpart : part ∈ m.parts (scope, .object keywords)) : m.Occurs part.2 := by
  obtain ⟨path, hwalk⟩ := h
  have hkeywords := Json.wellFormed_of_walk? hwf hwalk
  obtain ⟨more, hmore⟩ := (argues_of_mem_parts hkeywords.1 hpart).exists_walk? hkeywords
  exact ⟨path ++ more, by rw [Json.walk?_append, hwalk, Option.bind_some, hmore]⟩

lemma mem_allTexts {scope : Scope} {keywords : Entries Json} {text : String}
    (hwf : m.document.root.WellFormed) (h : m.Occurs (.object keywords))
    (htext : text ∈ m.texts (scope, .object keywords)) : text ∈ m.allTexts := by
  obtain ⟨path, hwalk⟩ := h
  refine List.mem_filterMap.2 ⟨path, Json.mem_paths_of_walk? hwalk, ?_⟩
  rw [hwalk, Option.bind_some, Json.members?, Option.bind_some]
  exact reference?_of_mem_texts (Json.wellFormed_of_walk? hwf hwalk).1 htext

lemma unfollowed_le {before after : Followed} (h : before ⊆ after) :
    m.unfollowed after ≤ m.unfollowed before := by
  refine List.Sublist.length_le (List.monotone_filter_right _ fun text htext => ?_)
  simp only [Bool.not_eq_true', List.contains_eq_mem, decide_eq_false_iff_not] at htext ⊢
  exact fun hmem => htext (h hmem)

lemma unfollowed_lt {followed : Followed} {text : String} (htext : text ∈ m.allTexts)
    (hnew : (m.document.rootScope.base, text) ∉ followed) :
    m.unfollowed ((m.document.rootScope.base, text) :: followed) < m.unfollowed followed := by
  have hfilter : (m.allTexts.filter fun other =>
      !((m.document.rootScope.base, text) :: followed).contains (m.document.rootScope.base, other))
      = Graph.without text (m.allTexts.filter fun other =>
        !followed.contains (m.document.rootScope.base, other)) := by
    rw [Graph.without, List.filter_filter]
    refine List.filter_congr fun other _ => ?_
    simp
  rw [unfollowed, unfollowed, hfilter]
  exact Graph.length_without_lt (List.mem_filter.2 ⟨htext, by simpa using hnew⟩)

lemma Extends.remaining_le {before after : Followed} (h : m.Extends before after) (levels : ℕ) :
    m.unfollowed after * levels ≤ m.unfollowed before * levels :=
  Nat.mul_le_mul_right levels (unfollowed_le h.1)

/-- What has been followed leads somewhere. -/
def Known (m : Matcher) (followed : Followed) : Prop :=
  ∀ text, (m.document.rootScope.base, text) ∈ followed →
    (m.document.resolve? m.document.rootScope text).isSome = true

lemma Known.extends {before after : Followed} (h : m.Known before) (hext : m.Extends before after) :
    m.Known after := by
  intro text htext
  rcases hext.2 text htext with hbefore | ⟨target, htarget, -⟩
  · exact h text hbefore
  · rw [htarget]
    rfl

/-- The check of a lead has been made, in the scope inside the schema. -/
def Handled (m : Matcher) (followed : Followed) (inner : Scope) : Lead → Prop
  | .fault _ => False
  | .nothing => True
  | .reference text => (m.document.resolve? m.document.rootScope text).isSome = true
      ∧ (m.document.rootScope.base, text) ∈ followed
  | .schemas patterns schemas => checkPatterns patterns = .ok ()
      ∧ ∀ schema ∈ schemas, m.Checked followed (inner, schema)

lemma Handled.mono {before after : Followed} {inner : Scope} {lead : Lead}
    (h : m.Handled before inner lead) (hsubset : before ⊆ after) : m.Handled after inner lead := by
  cases lead with
  | fault fault => exact h
  | nothing => trivial
  | reference text => exact ⟨h.1, hsubset h.2⟩
  | schemas patterns schemas =>
    exact ⟨h.1, fun schema hschema => (h.2 schema hschema).mono hsubset⟩

lemma checked_of_handled {followed : Followed} {scope : Scope} {keywords : Entries Json}
    (hinner : m.texts (scope, .object keywords) ≠ [] → scope.enter keywords = m.document.rootScope)
    (h : ∀ lead ∈ m.leads (scope, .object keywords), m.Handled followed (scope.enter keywords) lead) :
    m.Checked followed (scope, .object keywords) := by
  intro part hpart
  rcases Relation.ReflTransGen.cases_head hpart with rfl | ⟨next, hnext, hrest⟩
  · constructor
    · rw [isSound, Bool.and_eq_true, List.all_eq_true]
      refine ⟨rfl, fun lead hlead => ?_⟩
      have hhandled := h lead hlead
      cases lead with
      | fault fault => exact hhandled.elim
      | nothing => rfl
      | reference text =>
        have hplace : Place.inner (scope, .object keywords) = m.document.rootScope :=
          hinner (List.ne_nil_of_mem (mem_texts.2 hlead))
        rw [hplace]
        exact hhandled.1
      | schemas patterns schemas => exact decide_eq_true hhandled.1
    · exact fun text htext => (h _ (mem_texts.1 htext)).2
  · obtain ⟨patterns, schemas, hlead, hschema, hscope⟩ := mem_parts.1 hnext
    obtain ⟨inner, schema⟩ := next
    obtain rfl : inner = scope.enter keywords := hscope
    exact (h _ hlead).2 schema hschema part hrest

/-- A budget that is more than the references still to follow and the depth need is enough: what the
check goes through within it is checked. -/
def Checks (m : Matcher) (steps : ℕ) : Prop :=
  ∀ followed result place, Graph.Leads m.successors m.start place → m.Occurs place.2 →
    m.Known followed →
    m.unfollowed followed * (m.document.root.depth + 1) + place.2.depth < steps →
    m.reach steps followed place.1 place.2 = .ok result →
    m.Extends followed result ∧ m.Checked result place

section Steps

variable {steps : ℕ} {followed before after : Followed} {scope : Scope} {keywords : Entries Json}

lemma checked_of_not_object {place : Place} (hobject : place.2.isObject = false)
    (hsound : m.isSound place = true) : m.Checked followed place := by
  have hnone := leads_of_not_object (m := m) hobject
  intro part hpart
  rcases Relation.ReflTransGen.cases_head hpart with rfl | ⟨next, hnext, -⟩
  · refine ⟨hsound, fun text htext => ?_⟩
    simp [texts, hnone] at htext
  · simp [parts, hnone] at hnext

/-- A reference that is followed for the first time: one fewer is left. -/
lemma Checks.target (h : m.Checks steps) (hrooted : m.RefersFromRoot m.start) (hlisted : m.document.Listed)
    (hwf : m.document.root.WellFormed)
    (hplace : Graph.Leads m.successors m.start (scope, .object keywords))
    (hoccurs : m.Occurs (.object keywords)) (hknown : m.Known before) {text : String}
    (htext : text ∈ m.texts (scope, .object keywords))
    (hsteps : m.unfollowed before * (m.document.root.depth + 1) ≤ steps)
    (hnew : (m.document.rootScope.base, text) ∉ before) {target : Location}
    (htarget : m.document.resolve? m.document.rootScope text = some target)
    (hreach : m.reach steps ((m.document.rootScope.base, text) :: before) target.scope target.value
      = .ok after) :
    m.Extends before after ∧ (m.document.rootScope.base, text) ∈ after := by
  have hinner : Place.inner (scope, .object keywords) = m.document.rootScope :=
    hrooted scope keywords hplace (List.ne_nil_of_mem htext)
  have hsound := Document.resolve?_sound hlisted htarget
  have hmem : (target.scope, target.value) ∈ m.targets (scope, .object keywords) :=
    mem_targets.2 ⟨text, htext, target, by rw [hinner, htarget], rfl⟩
  have hmore : m.Known ((m.document.rootScope.base, text) :: before) := by
    intro other hother
    rcases List.mem_cons.1 hother with hother | hother
    · rw [(Prod.mk.inj hother).2, htarget]
      rfl
    · exact hknown other hother
  -- one reference fewer to follow makes up for a whole way down the document
  have hfewer : m.unfollowed ((m.document.rootScope.base, text) :: before)
      * (m.document.root.depth + 1) + target.value.depth < steps := by
    have hless := Nat.mul_le_mul_right (m.document.root.depth + 1)
      (Nat.succ_le_of_lt (unfollowed_lt (mem_allTexts hwf hoccurs htext) hnew))
    have hdeep := depth_le_of_walk? hsound
    rw [Nat.succ_mul] at hless
    omega
  obtain ⟨hext, hchecked⟩ := h _ after (target.scope, target.value)
    (hplace.tail (List.mem_append_right _ hmem)) ⟨_, hsound⟩ hmore hfewer hreach
  refine ⟨⟨fun key hkey => hext.1 (List.mem_cons_of_mem _ hkey), fun other hother => ?_⟩,
    hext.1 List.mem_cons_self⟩
  rcases hext.2 other hother with hmem | hsettled
  · rcases List.mem_cons.1 hmem with heq | hmem
    · rw [(Prod.mk.inj heq).2]
      exact Or.inr ⟨target, htarget, hchecked⟩
    · exact Or.inl hmem
  · exact Or.inr hsettled

/-- Schemas that a schema applies: each lies further in. -/
lemma Checks.parts (h : m.Checks steps) (hwf : m.document.root.WellFormed)
    (hplace : Graph.Leads m.successors m.start (scope, .object keywords))
    (hoccurs : m.Occurs (.object keywords)) (hknown : m.Known before)
    (hsteps : m.unfollowed before * (m.document.root.depth + 1) + (Json.object keywords).depth
      ≤ steps) {schemas : List Json}
    (hparts : ∀ schema ∈ schemas,
      (scope.enter keywords, schema) ∈ m.parts (scope, .object keywords))
    (hreach : schemas.foldlM (fun followed => m.reach steps followed (scope.enter keywords)) before
      = .ok after) :
    m.Extends before after ∧ ∀ schema ∈ schemas, m.Checked after (scope.enter keywords, schema) := by
  refine of_foldlM_ok (R := m.Extends)
    (P := fun followed schema => m.Checked followed (scope.enter keywords, schema))
    extends_refl (fun _ _ _ => Extends.trans) (fun _ _ _ hext hchecked => hchecked.mono hext.1)
    (fun schema hschema r t hr ht => ?_) hreach
  have hpart := hparts schema hschema
  refine h r t (scope.enter keywords, schema) (hplace.tail (List.mem_append_left _ hpart))
    (hoccurs.part hwf hpart) (hknown.extends hr) ?_ ht
  have hfewer := hr.remaining_le (m.document.root.depth + 1)
  obtain ⟨path, hwalk⟩ := hoccurs
  have hless := (argues_of_mem_parts (Json.wellFormed_of_walk? hwf hwalk).1 hpart).depth_lt
  dsimp only at hless ⊢
  omega

/-- One keyword. -/
lemma Checks.keyword (h : m.Checks steps) (hrooted : m.RefersFromRoot m.start)
    (hlisted : m.document.Listed) (hwf : m.document.root.WellFormed)
    (hplace : Graph.Leads m.successors m.start (scope, .object keywords))
    (hoccurs : m.Occurs (.object keywords)) (hknown : m.Known before)
    (hsteps : m.unfollowed before * (m.document.root.depth + 1) + (Json.object keywords).depth
      ≤ steps) {entry : String × Json}
    (hentry : entry ∈ effectiveKeywords (scope.enter keywords).draft keywords)
    (hreach : m.reachKeyword (m.reach steps) (scope.enter keywords) keywords before entry
      = .ok after) :
    m.Extends before after
      ∧ m.Handled after (scope.enter keywords)
        (m.lead (scope.enter keywords).draft keywords entry) := by
  have hlead : m.lead (scope.enter keywords).draft keywords entry
      ∈ m.leads (scope, .object keywords) := List.mem_map_of_mem hentry
  rw [reachKeyword_eq] at hreach
  cases hcase : m.lead (scope.enter keywords).draft keywords entry with
  | fault fault => simp [hcase] at hreach
  | nothing =>
    rw [hcase] at hreach
    obtain rfl : before = after := Except.ok.inj hreach
    exact ⟨extends_refl before, trivial⟩
  | reference text =>
    rw [hcase] at hreach hlead
    have hinner : scope.enter keywords = m.document.rootScope :=
      hrooted scope keywords hplace (List.ne_nil_of_mem (mem_texts.2 hlead))
    rw [hinner] at hreach
    dsimp only at hreach
    split at hreach
    · rename_i hmem
      obtain rfl : before = after := Except.ok.inj hreach
      exact ⟨extends_refl before, hknown text hmem, hmem⟩
    · rename_i hnew
      split at hreach
      · simp at hreach
      · rename_i target htarget
        obtain ⟨hext, hmem⟩ := h.target hrooted hlisted hwf hplace hoccurs hknown
          (mem_texts.2 hlead) (Nat.le_trans (Nat.le_add_right _ _) hsteps) hnew htarget hreach
        exact ⟨hext, by rw [htarget]; rfl, hmem⟩
  | schemas patterns schemas =>
    rw [hcase] at hreach hlead
    obtain ⟨_, hpatterns, hreach⟩ := bind_eq_ok.1 hreach
    obtain ⟨hext, hchecked⟩ := h.parts hwf hplace hoccurs hknown hsteps
      (fun schema hschema => mem_parts.2 ⟨patterns, schemas, hlead, hschema, rfl⟩) hreach
    exact ⟨hext, hpatterns, hchecked⟩

end Steps

/-- **What the check has gone through is checked.**  By induction on the budget, which a way down the
document or one more reference uses up. -/
lemma checks (hrooted : m.RefersFromRoot m.start) (hlisted : m.document.Listed)
    (hwf : m.document.root.WellFormed) (steps : ℕ) : m.Checks steps := by
  induction steps with
  | zero => exact fun _ _ _ _ _ _ hsteps => absurd hsteps (Nat.not_lt_zero _)
  | succ steps ih =>
    rintro followed result ⟨scope, schema⟩ hplace hoccurs hknown hsteps h
    cases schema with
    | bool b =>
      obtain rfl : followed = result := Except.ok.inj h
      have hnone : m.leads (scope, .bool b) = [] := leads_of_not_object rfl
      exact ⟨extends_refl followed, checked_of_not_object rfl (by simp [isSound, hnone, Json.bool?])⟩
    | object keywords =>
      rw [reach_object] at h
      obtain ⟨hextends, hall⟩ := of_foldlM_ok (R := m.Extends)
        (P := fun followed entry => m.Handled followed (scope.enter keywords)
          (m.lead (scope.enter keywords).draft keywords entry))
        extends_refl (fun _ _ _ => Extends.trans) (fun _ _ _ hext hhandled => hhandled.mono hext.1)
        (fun entry hentry before after hbefore hafter => by
          have hfewer := hbefore.remaining_le (m.document.root.depth + 1)
          refine ih.keyword hrooted hlisted hwf hplace hoccurs (hknown.extends hbefore) ?_ hentry
            hafter
          dsimp only at hsteps
          omega) h
      refine ⟨hextends, checked_of_handled (hrooted scope keywords hplace) fun lead hlead => ?_⟩
      obtain ⟨entry, hentry, rfl⟩ := mem_leads_object.1 hlead
      exact hall entry hentry
    | _ => simp [reach] at h

lemma check_eq_ok_iff {value : Json} : m.check value = .ok ()
    ↔ m.document.scope.draft.isSchema value = true ∧ m.document.isClosed = true
      ∧ ∃ result, m.reach ((value.positions + 1) * (value.depth + 2)) [] m.document.scope
        m.document.root = .ok result := by
  unfold check
  cases m.document.scope.draft.isSchema value with
  | false => simp
  | true =>
    cases m.document.isClosed with
    | false => simp
    | true =>
      simp only [Bool.not_true, Bool.false_eq_true, if_false, true_and]
      rw [bind_eq_ok]
      exact exists_congr fun result => by simp [pure, Except.pure]

lemma Checked.part {followed : Followed} {place part : Place} (h : m.Checked followed place)
    (hpart : part ∈ m.parts place) : m.Checked followed part :=
  fun other hother => h other (Relation.ReflTransGen.head hpart hother)

/-- **A checked document** leads matching to sound schemas only. -/
lemma sound_of_check {value : Json} {draft : Draft}
    (hdocument : m.document = Document.ofJson draft value) (hwf : value.WellFormed)
    (hrooted : m.RefersFromRoot m.start) (h : m.check value = .ok ()) {place : Place}
    (hplace : Graph.Leads m.successors m.start place) : m.isSound place = true := by
  obtain ⟨-, -, result, hreach⟩ := check_eq_ok_iff.1 h
  have hroot : m.document.root = Document.kept value := by
    rw [hdocument, Document.root_ofJson]
  have hlisted : m.document.Listed := by
    rw [hdocument]
    exact Document.listed_ofJson draft hwf
  -- the check has a round of the depth of the document for each text that it may yet follow
  have hbudget : m.unfollowed [] * (m.document.root.depth + 1) + m.document.root.depth
      < (value.positions + 1) * (value.depth + 2) := by
    have htexts : m.unfollowed [] ≤ value.positions := by
      refine Nat.le_trans (List.length_filter_le _ _) (Nat.le_trans (List.length_filterMap_le _ _) ?_)
      rw [Json.length_paths, hroot]
      exact Document.positions_kept_le value
    have hdepth : m.document.root.depth ≤ value.depth := hroot ▸ Document.depth_kept_le value
    have hmul := Nat.mul_le_mul htexts (Nat.succ_le_succ hdepth)
    rw [Nat.succ_eq_add_one, Nat.succ_eq_add_one] at hmul
    rw [Nat.succ_mul, Nat.mul_succ value.positions (value.depth + 1)]
    omega
  obtain ⟨hextends, hchecked⟩ := checks hrooted hlisted (hroot ▸ Document.wellFormed_kept hwf) _ _
    result m.start Relation.ReflTransGen.refl ⟨[], rfl⟩
    (fun text htext => absurd htext List.not_mem_nil) hbudget hreach
  -- what has been checked stays so at parts, and at what a reference leads to, once it is followed
  have hall : m.Checked result place := by
    induction hplace with
    | refl => exact hchecked
    | @tail before after hbefore hstep ih =>
      rcases List.mem_append.1 hstep with hpart | htarget
      · exact ih.part hpart
      · obtain ⟨text, htext, target, hresolve, rfl⟩ := mem_targets.1 htarget
        obtain ⟨keywords, hkeywords⟩ := exists_object_of_mem_leads (mem_texts.1 htext)
        obtain ⟨scope, schema⟩ := before
        obtain rfl : schema = .object keywords := hkeywords
        have hinner : Place.inner (scope, .object keywords) = m.document.rootScope :=
          hrooted scope keywords hbefore (List.ne_nil_of_mem htext)
        have hfollowed := (ih _ Relation.ReflTransGen.refl).2 text htext
        obtain ⟨other, hother, hsettled⟩ := (hextends.2 text hfollowed).resolve_left
          List.not_mem_nil
        rw [hinner, hother] at hresolve
        obtain rfl := Option.some.inj hresolve
        exact hsettled
  exact (hall place Relation.ReflTransGen.refl).1

end Matcher

end SchemaAlgebra
