import SchemaAlgebra.Proofs.Composition

/-!
# Documents in one scope

Where no object of a document gives itself an identifier or announces a dialect
(`Json.KeepsScope`), one scope is in force throughout: references are all read against the root.

* `Site.MetIn.outer_eq` — the schemas of such a document stand in its scope.
* `Document.isClosed_iff_of_keepsScope` — it is closed if its references name no other document.
* `Matcher.InOneScope.rooted` — matching never leaves the scope.
-/

namespace SchemaAlgebra

open Fragment (plainScope)

/-! ## Values that keep a scope -/

namespace Json

/-- No object in the value changes the scope that it is met in. -/
def KeepsScope (scope : Scope) (value : Json) : Prop :=
  ∀ path keywords, value.walk? path = some (.object keywords) → scope.enter keywords = scope

variable {scope : Scope} {value : Json} {keywords members : Entries Json}

/-- What holds of all objects in a value can be checked. -/
lemma forall_walk?_iff {P : Entries Json → Prop} :
    (∀ path keywords, value.walk? path = some (.object keywords) → P keywords)
      ↔ ∀ path ∈ value.paths, ∀ keywords ∈ (value.walk? path).bind Json.members?, P keywords := by
  have hiff : ∀ path keywords, value.walk? path = some (.object keywords)
      ↔ keywords ∈ (value.walk? path).bind Json.members? := by
    intro path keywords
    rw [Option.mem_def, Option.bind_eq_some_iff]
    constructor
    · exact fun h => ⟨_, h, rfl⟩
    · rintro ⟨inner, hinner, hmembers⟩
      cases inner with
      | object others => exact Option.some.inj hmembers ▸ hinner
      | _ => simp [Json.members?] at hmembers
  simp only [hiff]
  refine ⟨fun h path _ keywords => h path keywords, fun h path keywords hkeywords => ?_⟩
  exact h path (mem_paths_of_walk? ((hiff path keywords).2 hkeywords)) keywords hkeywords

instance (scope : Scope) (value : Json) : Decidable (value.KeepsScope scope) :=
  decidable_of_iff _ forall_walk?_iff.symm

lemma KeepsScope.enter_eq (h : (Json.object keywords).KeepsScope scope) :
    scope.enter keywords = scope :=
  h [] keywords rfl

lemma KeepsScope.member (h : (Json.object members).KeepsScope scope) (hsorted : members.Sorted)
    {member : String × Json} (hmember : member ∈ members) : member.2.KeepsScope scope := by
  intro path keywords hwalk
  refine h (member.1 :: path) keywords ?_
  rw [walk?_object (Entries.lookup_of_mem hsorted hmember), hwalk]

lemma KeepsScope.item {items : List Json} (h : (Json.array items).KeepsScope scope) {item : Json}
    (hitem : item ∈ items) : item.KeepsScope scope := by
  intro path keywords hwalk
  obtain ⟨index, hindex⟩ := List.mem_iff_getElem?.1 hitem
  refine h (Pointer.indexToken index :: path) keywords ?_
  rw [walk?_array hindex, hwalk]

end Json

/-- Nothing in a value that keeps a scope leads out of it. -/
lemma Location.Sound.inner_eq_of_keepsScope {root : Json} {location : Location} {scope : Scope}
    (h : location.Sound root) (hkeeps : root.KeepsScope scope) (hscope : location.scope = scope) :
    location.inner = scope := by
  rw [Location.inner]
  split
  · rename_i keywords hkeywords
    rw [hscope]
    exact hkeeps location.path keywords (hkeywords ▸ h)
  · exact hscope

/-! ## Schemas of a document -/

namespace Site

lemma mem_ofKeywords_iff {scope : Scope} {path : List String} {keywords : Entries Json} {site : Site} :
    site ∈ ofKeywords scope path keywords ↔ ∃ entry ∈ keywords, ∃ shape,
      scope.draft.shape? entry.1 = some shape
        ∧ site ∈ ofArgument scope (path ++ [entry.1]) shape entry.2 := by
  induction keywords with
  | nil => simp [ofKeywords]
  | cons entry rest ih =>
    rw [ofKeywords, List.mem_append, ih]
    simp only [List.mem_cons, or_and_right, exists_or, exists_eq_left]
    cases scope.draft.shape? entry.1 <;> simp

lemma ofItems_append {scope : Scope} {path : List String} {first : ℕ} (items more : List Json) :
    ofItems scope path first (items ++ more)
      = ofItems scope path first items ++ ofItems scope path (first + items.length) more := by
  induction items generalizing first with
  | nil => simp [ofItems]
  | cons item rest ih =>
    rw [List.cons_append, ofItems, ofItems, ih, List.append_assoc, List.length_cons,
      Nat.add_right_comm, Nat.add_assoc]

/-- **The schemas in a value** that keeps the scope stand in that scope. -/
lemma MetIn.outer_eq {site : Site} {scope : Scope} {path : List String} {shape : Shape} {value : Json}
    (h : site.MetIn scope path shape value) (hwf : value.WellFormed) (hkeeps : value.KeepsScope scope) :
    site.outer = scope := by
  induction h with
  | self => rfl
  | keyword _ hmember _ _ ih =>
    rw [hkeeps.enter_eq] at ih
    exact ih (Json.wellFormed_of_mem_members hwf.2 hmember) (hkeeps.member hwf.1 hmember)
  | member _ hmember _ ih =>
    exact ih (Json.wellFormed_of_mem_members hwf.2 hmember) (hkeeps.member hwf.1 hmember)
  | item _ hitem _ ih =>
    have hmem := List.mem_of_getElem? hitem
    exact ih (Json.wellFormed_of_mem_items hwf hmem) (hkeeps.item hmem)

end Site

/-! ## References -/

namespace Document

/-- A reference names the document that it stands in. -/
def NamesOwn (text : String) : Prop :=
  ∃ uri, Uri.parse? text = some uri ∧ (defaultBase.resolve uri).withoutFragment = defaultBase

variable {value : Json} (hwf : value.WellFormed) (hkeeps : (kept value).KeepsScope plainScope)

lemma sites_ofJson (draft : Draft) (value : Json) :
    (ofJson draft value).sites = Site.ofArgument ⟨draft, defaultBase⟩ [] .schema (kept value) := by
  cases value <;> rfl

lemma rootLocation_ofJson (draft : Draft) (value : Json) :
    (ofJson draft value).rootLocation = ⟨⟨draft, defaultBase⟩, [], kept value⟩ := by
  cases value <;> rfl

include hkeeps in
lemma rootScope_of_keepsScope : (ofJson .draft7 value).rootScope = plainScope := by
  rw [rootScope, rootLocation_ofJson, Location.inner]
  split
  · rename_i keywords hkeywords
    have hroot : kept value = .object keywords := hkeywords
    exact (hroot ▸ hkeeps).enter_eq
  · rfl

include hwf hkeeps

/-- The schemas of a document that keeps the scope stand in it, and leave it as it is. -/
lemma scopes_of_mem_sites {site : Site} (hsite : site ∈ (ofJson .draft7 value).sites) :
    site.outer = plainScope ∧ site.inner = plainScope := by
  have hlies : (kept value).walk? site.path = some (.object site.keywords) := by
    have hsound := listed_ofJson .draft7 hwf site hsite
    rwa [Location.Sound, root_ofJson] at hsound
  rw [sites_ofJson] at hsite
  have houter := (Site.metIn_of_mem_ofArgument _ [] .schema _ site hsite).outer_eq (wellFormed_kept hwf) hkeeps
  exact ⟨houter, by rw [Site.inner, houter, hkeeps _ _ hlies]⟩

/-- The only resource of the document is the document. -/
lemma isSome_resource?_iff {uri : Uri} :
    ((ofJson .draft7 value).resource? uri).isSome = true ↔ uri = defaultBase := by
  have hbase : (ofJson .draft7 value).scope.base = defaultBase := by rw [Plan.scope_ofJson]
  have hroot : (ofJson .draft7 value).rootScope.base = defaultBase := by
    rw [rootScope_of_keepsScope hkeeps]
  rw [resource?, hbase, hroot, Bool.or_self]
  by_cases huri : uri = defaultBase
  · simp [huri]
  · rw [if_neg (by simpa using huri), Option.isSome_map, List.find?_isSome]
    refine iff_of_false ?_ huri
    rintro ⟨site, hsite, hfound⟩
    rw [(scopes_of_mem_sites hwf hkeeps hsite).2] at hfound
    exact huri (of_decide_eq_true (Bool.and_eq_true_iff.1 hfound).2).symm

/-- **A document in one scope** is closed if its references name no other document. -/
lemma isClosed_iff_of_keepsScope : (ofJson .draft7 value).isClosed = true
    ↔ ∀ site ∈ (ofJson .draft7 value).sites, ∀ text, Draft.reference? site.keywords = some text →
      NamesOwn text := by
  rw [isClosed, List.all_eq_true]
  refine forall₂_congr fun site hsite => ?_
  cases Draft.reference? site.keywords with
  | none => simp
  | some text =>
    dsimp only
    rw [(scopes_of_mem_sites hwf hkeeps hsite).2]
    cases hparse : Uri.parse? text with
    | none => simp [NamesOwn, hparse]
    | some uri =>
      dsimp only
      rw [isSome_resource?_iff hwf hkeeps]
      simp [NamesOwn, hparse]

/-- A reference leads to a place in the scope of the document. -/
lemma scope_of_resolve? {scope : Scope} {text : String} {target : Location}
    (h : (ofJson .draft7 value).resolve? scope text = some target) : target.scope = plainScope := by
  have hkept : target.Sound (kept value) ∧ target.scope = plainScope := by
    refine of_resolve? (P := fun location => location.Sound (kept value) ∧ location.scope = plainScope)
      ?_ (fun site hsite => ?_) (fun location token next hlocation hstep => ?_) h
    · rw [rootLocation_ofJson]
      exact ⟨rfl, rfl⟩
    · have hsound := listed_ofJson .draft7 hwf site hsite
      rw [root_ofJson] at hsound
      exact ⟨hsound, (scopes_of_mem_sites hwf hkeeps hsite).1⟩
    · obtain ⟨hsound, hscope⟩ := hlocation
      exact ⟨hsound.step? hstep,
        (Location.scope_of_step? hstep).trans (hsound.inner_eq_of_keepsScope hkeeps hscope)⟩
  exact hkept.2

end Document

/-! ## Matching -/

namespace Matcher

/-- A matcher is of a document in one scope, in the dialect of combinators. -/
structure InOneScope (m : Matcher) (value : Json) : Prop where
  document : m.document = .ofJson .draft7 value
  wellFormed : value.WellFormed
  keeps : (Document.kept value).KeepsScope plainScope

/-- A schema is met in the one scope, and stands in the document. -/
def Meets (m : Matcher) (place : Place) : Prop :=
  place.1 = plainScope ∧ m.Occurs place.2

namespace InOneScope

variable {m : Matcher} {value : Json} {place next : Place} (h : m.InOneScope value)

include h

lemma root_eq : m.document.root = Document.kept value := by
  rw [h.document, Document.root_ofJson]

lemma start_eq : m.start = (plainScope, Document.kept value) := by
  rw [start, h.root_eq, h.document, Plan.scope_ofJson]

lemma wellFormed_root : m.document.root.WellFormed := by
  rw [h.root_eq]
  exact Document.wellFormed_kept h.wellFormed

lemma listed : m.document.Listed := by
  rw [h.document]
  exact Document.listed_ofJson _ h.wellFormed

lemma rootScope_eq : m.document.rootScope = plainScope := by
  rw [h.document]
  exact Document.rootScope_of_keepsScope h.keeps

lemma meets_start : m.Meets m.start := by
  rw [h.start_eq]
  exact ⟨rfl, [], congrArg some h.root_eq⟩

lemma enter_eq {keywords : Entries Json} (hoccurs : m.Occurs (.object keywords)) :
    plainScope.enter keywords = plainScope := by
  obtain ⟨path, hpath⟩ := hoccurs
  exact h.keeps path keywords (h.root_eq ▸ hpath)

lemma inner_eq (hplace : m.Meets place) : place.inner = plainScope := by
  obtain ⟨scope, schema⟩ := place
  obtain ⟨hscope, hoccurs⟩ := hplace
  obtain rfl : scope = plainScope := hscope
  cases schema with
  | object keywords => exact h.enter_eq hoccurs
  | _ => rfl

lemma wellFormed_of_meets (hplace : m.Meets place) : place.2.WellFormed := by
  obtain ⟨-, path, hpath⟩ := hplace
  exact Json.wellFormed_of_walk? h.wellFormed_root hpath

/-- Matching stays in the document and its scope. -/
lemma meets_of_mem_successors (hplace : m.Meets place) (hnext : next ∈ m.successors place) :
    m.Meets next := by
  have hinner := h.inner_eq hplace
  rcases List.mem_append.1 hnext with hpart | htarget
  · obtain ⟨scope, schema⟩ := place
    obtain ⟨_, _, hlead, -, hscope⟩ := mem_parts.1 hpart
    obtain ⟨keywords, hkeywords⟩ := exists_object_of_mem_leads hlead
    obtain rfl : schema = .object keywords := hkeywords
    exact ⟨hscope.trans hinner, hplace.2.part h.wellFormed_root hpart⟩
  · obtain ⟨text, -, target, hresolve, rfl⟩ := mem_targets.1 htarget
    refine ⟨?_, target.path, Document.resolve?_sound h.listed hresolve⟩
    rw [h.document] at hresolve
    exact Document.scope_of_resolve? h.wellFormed h.keeps hresolve

lemma meets_of_leads (hplace : m.Meets place) (hleads : Graph.Leads m.successors place next) :
    m.Meets next := by
  induction hleads with
  | refl => exact hplace
  | tail _ hstep ih => exact h.meets_of_mem_successors ih hstep

/-- **References are read against the root**, wherever they are met. -/
lemma rooted (hplace : m.Meets place) : m.Rooted place := by
  intro scope keywords hleads
  have hinner := h.inner_eq (h.meets_of_leads hplace hleads)
  rw [h.rootScope_eq]
  exact hinner

omit h in
/-- The document finds wrong what its keywords do. -/
lemma judge_eq_nodeViolations {keywords : Entries Json} (h : m.InOneScope (.object keywords))
    (steps : ℕ) (value : Json) : m.judge (steps + 1) m.document.scope m.document.root value
      = m.nodeViolations (m.judge steps) plainScope (Entries.erase "$schema" keywords) value := by
  have hroot : m.document.root = .object (Entries.erase "$schema" keywords) := h.root_eq
  have hscope : m.document.scope = plainScope := by rw [h.document, Plan.scope_ofJson]
  have henter : plainScope.enter (Entries.erase "$schema" keywords) = plainScope := h.keeps.enter_eq
  rw [hroot, hscope]
  change m.nodeViolations _ (plainScope.enter _) _ _ = _
  rw [henter]

end InOneScope

end Matcher

end SchemaAlgebra
