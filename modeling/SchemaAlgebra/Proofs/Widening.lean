import SchemaAlgebra.Proofs.Keywords
import SchemaAlgebra.Proofs.Records
import SchemaAlgebra.Proofs.Scopes

/-!
# Unions with one more member

A document may get one more member of its union, for `null`, and lose a default (`Widens`).  Everything
else inside stays where it was, so that matching goes on as before where references lead to the same as
before (`SameReferences`).

* `Matcher.Widened.judge_eq` — inside the document, the same is found wrong.
* `Matcher.Widened.check'` — the document can be matched against as before.
* `Matcher.Widened.accepts_iff` — it accepts what it accepted, and `null`, provided that only the union
  had something against `null`.
-/

namespace SchemaAlgebra

open Fragment (plainScope)

/-- The schema of `null`. -/
abbrev nullSchema : Json :=
  (Fragment.ofKind .null).json

/-- The keywords that a wider union says something else under. -/
def reworded : List String :=
  ["anyOf", "default"]

/-- A schema is a union, and another one has one more member in the union: all else is the same, but
that a default of `null` may be missing. -/
structure Widens (keywords others : Entries Json) (items : List Json) : Prop where
  wellFormed : (Json.object keywords).WellFormed
  wellFormed' : (Json.object others).WellFormed
  union : Entries.lookup "anyOf" keywords = some (.array items)
  widened : Entries.lookup "anyOf" others = some (.array (items ++ [nullSchema]))
  default : Entries.lookup "default" others
    = (Entries.lookup "default" keywords).filter fun value => !value.isNull
  beside : ∀ key ∉ reworded, Entries.lookup key others = Entries.lookup key keywords

/-- What references anywhere in a document lead to, for matching and for the plan, they lead to in
another document as well. -/
structure SameReferences (document other : Json) : Prop where
  matched : ∀ path keywords text, document.walk? path = some (.object keywords) →
    Draft.reference? keywords = some text →
      (Document.ofJson .draft7 other).resolve? plainScope text
        = (Document.ofJson .draft7 document).resolve? plainScope text
  planned : ∀ path keywords target, document.walk? path = some (.object keywords) →
    Json.localTarget? keywords = some target → other.resolve? target = document.resolve? target

lemma sameReferences_iff {document other : Json} : SameReferences document other
    ↔ (∀ path ∈ document.paths, ∀ keywords ∈ (document.walk? path).bind Json.members?,
        ∀ text ∈ Draft.reference? keywords, (Document.ofJson .draft7 other).resolve? plainScope text
          = (Document.ofJson .draft7 document).resolve? plainScope text)
      ∧ ∀ path ∈ document.paths, ∀ keywords ∈ (document.walk? path).bind Json.members?,
        ∀ target ∈ Json.localTarget? keywords, other.resolve? target = document.resolve? target := by
  rw [← Json.forall_walk?_iff, ← Json.forall_walk?_iff]
  constructor
  · intro h
    exact ⟨fun path keywords hwalk text => h.matched path keywords text hwalk,
      fun path keywords hwalk target => h.planned path keywords target hwalk⟩
  · rintro ⟨hmatched, hplanned⟩
    exact ⟨fun path keywords text hwalk => hmatched path keywords hwalk text,
      fun path keywords target hwalk => hplanned path keywords hwalk target⟩

instance (document other : Json) : Decidable (SameReferences document other) :=
  decidable_of_iff _ sameReferences_iff.symm

/-- A keyword is looked at unless a reference makes it void. -/
lemma Matcher.mem_effectiveKeywords_iff {keywords : Entries Json} {entry : String × Json} :
    entry ∈ effectiveKeywords .draft7 keywords
      ↔ entry ∈ keywords ∧ (Draft.reference? keywords = none ∨ entry.1 = "$ref") := by
  rw [effectiveKeywords]
  cases Draft.reference? keywords with
  | none => simp
  | some text => simp [Draft.refersAlone, Draft.since, Draft.age]

namespace Widens

variable {keywords others inner : Entries Json} {items : List Json} {path : List String} {value : Json}
  (h : Widens keywords others items)

include h

/-! ## Keywords -/

/-- Beside the union nothing is said anew. -/
lemma lookup_of_lookup {key : String} (hkey : key ≠ "anyOf")
    (hlookup : Entries.lookup key others = some value) : Entries.lookup key keywords = some value := by
  by_cases hdefault : key = "default"
  · rw [hdefault, h.default] at hlookup
    rw [hdefault]
    exact (Option.filter_eq_some_iff.1 hlookup).1
  · rw [← h.beside key (by simp [reworded, hkey, hdefault]), hlookup]

/-- And nothing but a default of `null` is no longer said. -/
lemma lookup_or_default {key : String} (hkey : key ≠ "anyOf")
    (hlookup : Entries.lookup key keywords = some value) :
    Entries.lookup key others = some value ∨ (key, value) = ("default", .null) := by
  by_cases hdefault : key = "default"
  · subst hdefault
    rw [h.default, hlookup, Option.filter_some]
    cases value with
    | null => exact Or.inr rfl
    | _ => exact Or.inl rfl
  · exact Or.inl ((h.beside key (by simp [reworded, hkey, hdefault])).trans hlookup)

lemma sameSiblings : Matcher.SameSiblings others keywords := by
  intro key hkey
  refine h.beside key ?_
  revert key
  decide

lemma reference?_eq : Draft.reference? others = Draft.reference? keywords :=
  h.sameSiblings.reference?_eq

lemma enter_eq (scope : Scope) : scope.enter others = scope.enter keywords := by
  have hidentifier : ∀ draft : Draft, draft.identifier? others = draft.identifier? keywords := by
    intro draft
    rw [Draft.identifier?, Draft.identifier?, h.reference?_eq, h.beside _ (by split <;> decide)]
  rw [Scope.enter, Scope.enter, h.beside "$schema" (by decide)]
  simp only [hidentifier]

/-- What the document keeps is widened likewise. -/
lemma kept : Widens (Entries.erase "$schema" keywords) (Entries.erase "$schema" others) items where
  wellFormed := by
    have hkept := Document.wellFormed_kept h.wellFormed
    exact hkept
  wellFormed' := by
    have hkept := Document.wellFormed_kept h.wellFormed'
    exact hkept
  union := (Document.lookup_erase_of_ne (by decide) _).trans h.union
  widened := (Document.lookup_erase_of_ne (by decide) _).trans h.widened
  default := by
    rw [Document.lookup_erase_of_ne (by decide), Document.lookup_erase_of_ne (by decide), h.default]
  beside := fun key hkey => by
    by_cases hschema : key = "$schema"
    · rw [hschema, Document.lookup_erase_self, Document.lookup_erase_self]
    · rw [Document.lookup_erase_of_ne hschema, Document.lookup_erase_of_ne hschema, h.beside key hkey]

/-- Nothing else is looked at than before, but for the union. -/
lemma mem_effectiveKeywords_cases {entry : String × Json}
    (hentry : entry ∈ Matcher.effectiveKeywords .draft7 others) :
    entry.1 ≠ "anyOf" ∧ entry ∈ Matcher.effectiveKeywords .draft7 keywords
      ∨ Draft.reference? keywords = none ∧ entry = ("anyOf", .array (items ++ [nullSchema])) := by
  obtain ⟨hmem, hvoid⟩ := Matcher.mem_effectiveKeywords_iff.1 hentry
  rw [h.reference?_eq] at hvoid
  have hlookup := Entries.lookup_of_mem h.wellFormed'.1 hmem
  by_cases hkey : entry.1 = "anyOf"
  · rw [hkey, h.widened] at hlookup
    refine Or.inr ⟨hvoid.resolve_right (by simp [hkey]), ?_⟩
    exact Prod.ext hkey (Option.some.inj hlookup).symm
  · exact Or.inl ⟨hkey, Matcher.mem_effectiveKeywords_iff.2
      ⟨Entries.mem_of_lookup (h.lookup_of_lookup hkey hlookup), hvoid⟩⟩

/-- All is looked at that was, but for the union, and a default of `null`. -/
lemma mem_effectiveKeywords_cases' {entry : String × Json}
    (hentry : entry ∈ Matcher.effectiveKeywords .draft7 keywords) :
    entry.1 ≠ "anyOf" ∧ entry ∈ Matcher.effectiveKeywords .draft7 others
      ∨ Draft.reference? keywords = none ∧ entry = ("anyOf", .array items)
      ∨ entry = ("default", .null) := by
  obtain ⟨hmem, hvoid⟩ := Matcher.mem_effectiveKeywords_iff.1 hentry
  have hlookup := Entries.lookup_of_mem h.wellFormed.1 hmem
  by_cases hkey : entry.1 = "anyOf"
  · rw [hkey, h.union] at hlookup
    refine Or.inr (Or.inl ⟨hvoid.resolve_right (by simp [hkey]), ?_⟩)
    exact Prod.ext hkey (Option.some.inj hlookup).symm
  · rcases h.lookup_or_default hkey hlookup with hsame | hnull
    · refine Or.inl ⟨hkey, Matcher.mem_effectiveKeywords_iff.2 ⟨Entries.mem_of_lookup hsame, ?_⟩⟩
      rwa [h.reference?_eq]
    · exact Or.inr (Or.inr hnull)

/-- Without a reference, the union is looked at. -/
lemma union_mem (hreference : Draft.reference? keywords = none) :
    ("anyOf", .array items) ∈ Matcher.effectiveKeywords .draft7 keywords :=
  Matcher.mem_effectiveKeywords_iff.2 ⟨Entries.mem_of_lookup h.union, Or.inl hreference⟩

lemma widened_mem (hreference : Draft.reference? keywords = none) :
    ("anyOf", .array (items ++ [nullSchema])) ∈ Matcher.effectiveKeywords .draft7 others :=
  Matcher.mem_effectiveKeywords_iff.2
    ⟨Entries.mem_of_lookup h.widened, Or.inl (h.reference?_eq.trans hreference)⟩

/-! ## Ways through the document -/

/-- What stands inside the document stays, but for the list of members and a default. -/
lemma walk?_of (hpath : path ≠ []) (hunion : path ≠ ["anyOf"]) (hdefault : path ≠ ["default"])
    (hwalk : (Json.object keywords).walk? path = some value) :
    (Json.object others).walk? path = some value := by
  cases path with
  | nil => exact absurd rfl hpath
  | cons token rest =>
    rw [Json.walk?_cons] at hwalk ⊢
    obtain ⟨next, hnext, hrest⟩ := Option.bind_eq_some_iff.1 hwalk
    have hnext : Entries.lookup token keywords = some next := hnext
    by_cases htoken : token = "anyOf"
    · subst htoken
      obtain rfl := Option.some.inj (h.union.symm.trans hnext)
      cases rest with
      | nil => exact absurd rfl hunion
      | cons place rest =>
        rw [Json.walk?_cons] at hrest
        obtain ⟨item, hitem, hrest⟩ := Option.bind_eq_some_iff.1 hrest
        obtain ⟨index, hindex, hitem⟩ := Option.bind_eq_some_iff.1 hitem
        refine Option.bind_eq_some_iff.2 ⟨_, h.widened, ?_⟩
        rw [Json.walk?_cons]
        refine Option.bind_eq_some_iff.2 ⟨item, Option.bind_eq_some_iff.2 ⟨index, hindex, ?_⟩, hrest⟩
        rw [List.getElem?_append_left (List.getElem?_eq_some_iff.1 hitem).1, hitem]
    · rcases h.lookup_or_default htoken hnext with hsame | hnull
      · exact Option.bind_eq_some_iff.2 ⟨next, hsame, hrest⟩
      · -- no way leads on from `null`
        obtain ⟨rfl, rfl⟩ := Prod.mk.inj hnull
        cases rest with
        | nil => exact absurd rfl hdefault
        | cons place rest => simp [Json.walk?, Json.step?] at hrest

/-- And nothing is new but the member. -/
lemma walk?_cases (hwalk : (Json.object others).walk? path = some value) :
    path = [] ∨ path = ["anyOf"] ∨ (Json.object keywords).walk? path = some value
      ∨ ∃ rest, nullSchema.walk? rest = some value := by
  cases path with
  | nil => exact Or.inl rfl
  | cons token rest =>
    rw [Json.walk?_cons] at hwalk ⊢
    obtain ⟨next, hnext, hrest⟩ := Option.bind_eq_some_iff.1 hwalk
    have hnext : Entries.lookup token others = some next := hnext
    by_cases htoken : token = "anyOf"
    · subst htoken
      obtain rfl := Option.some.inj (h.widened.symm.trans hnext)
      cases rest with
      | nil => exact Or.inr (Or.inl rfl)
      | cons place rest =>
        rw [Json.walk?_cons] at hrest
        obtain ⟨item, hitem, hrest⟩ := Option.bind_eq_some_iff.1 hrest
        obtain ⟨index, hindex, hitem⟩ := Option.bind_eq_some_iff.1 hitem
        by_cases hold : index < items.length
        · rw [List.getElem?_append_left hold] at hitem
          refine Or.inr (Or.inr (Or.inl (Option.bind_eq_some_iff.2 ⟨_, h.union, ?_⟩)))
          rw [Json.walk?_cons]
          exact Option.bind_eq_some_iff.2 ⟨item, Option.bind_eq_some_iff.2 ⟨index, hindex, hitem⟩, hrest⟩
        · rw [List.getElem?_append_right (Nat.le_of_not_lt hold)] at hitem
          obtain rfl := List.mem_singleton.1 (List.mem_of_getElem? hitem)
          exact Or.inr (Or.inr (Or.inr ⟨rest, hrest⟩))
    · exact Or.inr (Or.inr (Or.inl
        (Option.bind_eq_some_iff.2 ⟨next, h.lookup_of_lookup htoken hnext, hrest⟩)))

omit h in
lemma eq_of_walk?_nullSchema (hwalk : nullSchema.walk? path = some (.object inner)) :
    inner = (Fragment.ofKind .null).keywords := by
  cases path with
  | nil => exact (Json.object.inj (Option.some.inj hwalk)).symm
  | cons token rest =>
    rw [Json.walk?_cons] at hwalk
    obtain ⟨next, hnext, hrest⟩ := Option.bind_eq_some_iff.1 hwalk
    have hnext := Entries.mem_of_lookup hnext
    obtain ⟨-, rfl⟩ := Prod.mk.inj (List.mem_singleton.1 hnext)
    cases rest <;> simp [Json.walk?, Json.step?] at hrest

/-- An object in the widened document is the document, the new member, or was there before. -/
lemma object_cases (hwalk : (Json.object others).walk? path = some (.object inner)) :
    path = [] ∧ inner = others ∨ inner = (Fragment.ofKind .null).keywords
      ∨ (Json.object keywords).walk? path = some (.object inner) := by
  rcases h.walk?_cases hwalk with rfl | rfl | hold | ⟨rest, hnew⟩
  · exact Or.inl ⟨rfl, (Json.object.inj (Option.some.inj hwalk)).symm⟩
  · rw [Json.walk?_object h.widened, Json.walk?_nil] at hwalk
    simp at hwalk
  · exact Or.inr (Or.inr hold)
  · exact Or.inr (Or.inl (eq_of_walk?_nullSchema hnew))

lemma keepsScope {scope : Scope} (hkeeps : (Json.object keywords).KeepsScope scope) :
    (Json.object others).KeepsScope scope := by
  intro path inner hwalk
  rcases h.object_cases hwalk with ⟨-, rfl⟩ | rfl | hold
  · rw [h.enter_eq]
    exact hkeeps.enter_eq
  · obtain ⟨draft, base⟩ := scope
    cases draft <;> rfl
  · exact hkeeps path inner hold

/-! ## The check of the document -/

lemma isSchema (hschema : Draft.draft7.isSchema (.object keywords) = true) :
    Draft.draft7.isSchema (.object others) = true := by
  rw [Draft.isSchema, Draft.fits, Bool.and_eq_true, Plan.fitKeywords_iff] at hschema ⊢
  refine ⟨rfl, fun entry hentry shape hshape => ?_⟩
  by_cases hkey : entry.1 = "anyOf"
  · have hitems := hschema.2 _ (Entries.mem_of_lookup h.union) .schemas rfl
    have hentry : entry = ("anyOf", .array (items ++ [nullSchema])) := by
      have hlookup := Entries.lookup_of_mem h.wellFormed'.1 hentry
      rw [hkey, h.widened] at hlookup
      exact Prod.ext hkey (Option.some.inj hlookup).symm
    subst hentry
    obtain rfl : Shape.schemas = shape := Option.some.inj hshape
    rw [Draft.fits, Bool.and_eq_true, Draft.fitItems_iff] at hitems ⊢
    refine ⟨by simp, fun item hitem => ?_⟩
    rcases List.mem_append.1 hitem with hitem | hitem
    · exact hitems.2 item hitem
    · rw [List.mem_singleton.1 hitem]
      decide
  · have hlookup := h.lookup_of_lookup hkey (Entries.lookup_of_mem h.wellFormed'.1 hentry)
    exact hschema.2 entry (Entries.mem_of_lookup hlookup) shape hshape

omit h in
lemma keywords_of_mem_nullSchema {site : Site}
    (hsite : site ∈ Site.ofArgument plainScope path .schema nullSchema) :
    site.keywords = (Fragment.ofKind .null).keywords := by
  rcases List.mem_cons.1 hsite with rfl | hsite
  · rfl
  · obtain ⟨entry, hentry, shape, hshape, hsite⟩ := Site.mem_ofKeywords_iff.1 hsite
    obtain rfl := List.mem_singleton.1 hentry
    obtain rfl : Shape.types = shape := Option.some.inj hshape
    exact absurd hsite List.not_mem_nil

/-- The references in the widened document were there before. -/
lemma references_of_sites (hkeeps : (Json.object keywords).KeepsScope plainScope) {site : Site}
    (hsite : site ∈ Site.ofArgument plainScope [] .schema (.object others)) {text : String}
    (htext : Draft.reference? site.keywords = some text) :
    ∃ site ∈ Site.ofArgument plainScope [] .schema (.object keywords),
      Draft.reference? site.keywords = some text := by
  have henter := (h.keepsScope hkeeps).enter_eq
  rcases List.mem_cons.1 hsite with rfl | hsite
  · exact ⟨⟨plainScope, [], keywords⟩, List.mem_cons_self, h.reference?_eq ▸ htext⟩
  · obtain ⟨entry, hentry, shape, hshape, hsite⟩ := Site.mem_ofKeywords_iff.1 hsite
    rw [henter] at hshape hsite
    have hgo : ∀ argument, (entry.1, argument) ∈ keywords →
        site ∈ Site.ofArgument plainScope ([] ++ [entry.1]) shape argument →
        ∃ site ∈ Site.ofArgument plainScope [] .schema (.object keywords),
          Draft.reference? site.keywords = some text := by
      intro argument hargument hsite
      refine ⟨site, List.mem_cons_of_mem _ (Site.mem_ofKeywords_iff.2
        ⟨_, hargument, shape, ?_, ?_⟩), htext⟩
      · rw [hkeeps.enter_eq]
        exact hshape
      · rw [hkeeps.enter_eq]
        exact hsite
    by_cases hkey : entry.1 = "anyOf"
    · obtain ⟨key, argument⟩ := entry
      obtain rfl : key = "anyOf" := hkey
      obtain rfl : Shape.schemas = shape := Option.some.inj hshape
      have hlookup := Entries.lookup_of_mem h.wellFormed'.1 hentry
      obtain rfl := Option.some.inj (h.widened.symm.trans hlookup)
      have hsite : site ∈ Site.ofItems plainScope ["anyOf"] 0 (items ++ [nullSchema]) := hsite
      rw [Site.ofItems_append, List.mem_append] at hsite
      rcases hsite with hsite | hsite
      · exact hgo (.array items) (Entries.mem_of_lookup h.union) hsite
      · rw [Site.ofItems, Site.ofItems, List.append_nil] at hsite
        rw [keywords_of_mem_nullSchema hsite] at htext
        cases htext
    · have hlookup := h.lookup_of_lookup hkey (Entries.lookup_of_mem h.wellFormed'.1 hentry)
      exact hgo entry.2 (Entries.mem_of_lookup hlookup) hsite

end Widens

/-! ## Size -/

/-- The new member takes more room than the default that may be missing. -/
lemma Widens.positions_le {keywords others : Entries Json} {items : List Json}
    (h : Widens keywords others items) :
    (Json.object keywords).positions ≤ (Json.object others).positions := by
  have hsorted : (Entries.erase "anyOf" keywords).Sorted := h.wellFormed.1.filter _
  have hunion := Json.positions_add_erase h.wellFormed.1 h.union
  have hwidened := Json.positions_add_erase h.wellFormed'.1 h.widened
  have hmember : (Json.array (items ++ [nullSchema])).positions = (Json.array items).positions + 2 := by
    rw [Json.positions, Json.positions, Json.itemsPositions_append]
    rfl
  have hsame : ∀ few : Entries Json, few.Sorted →
      (∀ entry ∈ few, entry ∈ Entries.erase "anyOf" keywords ∧ entry ≠ ("default", .null)) →
      Json.membersPositions few ≤ Json.membersPositions (Entries.erase "anyOf" others) := by
    intro few hfew hbeside
    refine Json.membersPositions_le hfew (h.wellFormed'.1.filter _) fun entry hentry => ?_
    obtain ⟨hmem, hnull⟩ := hbeside entry hentry
    obtain ⟨hmem, hkey⟩ := List.mem_filter.1 hmem
    have hkey : entry.1 ≠ "anyOf" := of_decide_eq_true hkey
    have hlookup := Entries.lookup_of_mem h.wellFormed.1 hmem
    refine ⟨entry.2, ?_, Nat.le_refl _⟩
    rw [Document.lookup_erase_of_ne hkey]
    exact (h.lookup_or_default hkey hlookup).resolve_right hnull
  have hrest : Json.membersPositions (Entries.erase "anyOf" keywords)
      ≤ Json.membersPositions (Entries.erase "anyOf" others) + 1 := by
    by_cases hnull : ("default", Json.null) ∈ Entries.erase "anyOf" keywords
    · have hdefault := Json.positions_add_erase hsorted (Entries.lookup_of_mem hsorted hnull)
      have hless := hsame _ (hsorted.filter fun entry => entry.1 ≠ "default") fun entry hentry => by
        obtain ⟨hmem, hkey⟩ := List.mem_filter.1 hentry
        exact ⟨hmem, fun heq => of_decide_eq_true hkey (heq ▸ rfl)⟩
      have hone : Json.null.positions = 1 := rfl
      rw [← hdefault, hone, Nat.add_comm]
      exact Nat.succ_le_succ hless
    · refine Nat.le_succ_of_le (hsame _ hsorted fun entry hentry => ⟨hentry, ?_⟩)
      rintro rfl
      exact hnull hentry
  rw [Json.positions, Json.positions]
  omega

/-! ## Violations of `null` -/

namespace Matcher

section Null

variable {m : Matcher} {judge : Judge} {scope : Scope} {keywords : Entries Json} {keyword : String}
  {argument : Json} {violation : Violation}

/-- A keyword that tests `null` itself finds wrong what it says. -/
lemma schemaRoute_of_mem_assert {enforcesFormats : Bool} {draft : Draft}
    (h : violation ∈ assert enforcesFormats draft keywords keyword argument .null) :
    violation.schemaRoute = [keyword] := by
  unfold assert at h
  split at h
  · exact schemaRoute_of_mem_require h
  · exact schemaRoute_of_mem_require h
  · exact schemaRoute_of_mem_require h
  all_goals simp_all [minimum, maximum, belowMinimum, aboveMaximum, require, atLeast, atMost, extentOf?,
    lacking]

lemma head?_of_mem_applyHere {route : List String} {token : String} {schema value : Json}
    (h : violation ∈ applyHere judge scope (token :: route) schema value) :
    violation.schemaRoute.head? = some token := by
  obtain ⟨inner, -, rfl⟩ := List.mem_map.1 h
  rfl

/-- A keyword that applies schemas to `null` finds wrong what it says, or what a schema under a keyword
of its own says. -/
lemma head?_of_mem_apply (h : violation ∈ apply judge scope keywords keyword argument .null) :
    violation.schemaRoute.head? = some keyword
      ∨ keyword = "if" ∧ violation.schemaRoute.head? ∈ [some "then", some "else"] := by
  unfold apply at h
  dsimp only at h
  split at h
  · obtain ⟨_, -, h⟩ := List.mem_flatMap.1 h
    exact Or.inl (head?_of_mem_applyHere h)
  · exact Or.inl (congrArg List.head? (schemaRoute_of_mem_require h))
  · unfold oneOf at h
    split at h
    · obtain rfl := List.mem_singleton.1 h
      exact Or.inl rfl
    · exact absurd h List.not_mem_nil
    · obtain rfl := List.mem_singleton.1 h
      exact Or.inl rfl
  · exact Or.inl (congrArg List.head? (schemaRoute_of_mem_require h))
  · unfold conditional at h
    dsimp only at h
    split at h
    · rw [head?_of_mem_applyHere h]
      refine Or.inr ⟨rfl, ?_⟩
      split <;> simp
    · exact absurd h List.not_mem_nil
  -- the other keywords apply schemas to members and items only
  all_goals contradiction

/-- Only `anyOf` finds wrong with `null` what is found wrong at `anyOf`. -/
lemma eq_anyOf_of_mem_keywordViolations
    (h : violation ∈ m.keywordViolations judge scope keywords keyword argument .null)
    (hroute : violation.schemaRoute = ["anyOf"]) : keyword = "anyOf" := by
  have hself : violation.schemaRoute = [keyword] → keyword = "anyOf" := fun hkeyword =>
    List.singleton_inj.1 (hkeyword.symm.trans hroute)
  unfold keywordViolations at h
  split at h
  · exact hself (schemaRoute_of_mem_require h)
  · exact absurd h List.not_mem_nil
  · split at h
    · exact absurd h List.not_mem_nil
    · split at h
      · unfold followReference at h
        split at h
        · exact absurd h List.not_mem_nil
        · split at h
          · exact absurd h List.not_mem_nil
          · have htoken := head?_of_mem_applyHere h
            rw [hroute] at htoken
            exact absurd htoken (by decide)
      · rcases List.mem_append.1 h with h | h
        · exact hself (schemaRoute_of_mem_assert h)
        · rcases head?_of_mem_apply h with htoken | ⟨-, htoken⟩
          · rw [hroute] at htoken
            exact (Option.some.inj htoken).symm
          · rw [hroute] at htoken
            exact absurd htoken (by decide)

end Null

end Matcher

/-! ## Matching -/

namespace Matcher

/-- A matcher of a document in one scope, and one, set up alike, of the document with a wider union,
where references lead to what they led to. -/
structure Widened (m m' : Matcher) (keywords others : Entries Json) (items : List Json) : Prop where
  widens : Widens keywords others items
  alike : m.Alike m'
  inScope : m.InOneScope (.object keywords)
  document' : m'.document = .ofJson .draft7 (.object others)
  references : SameReferences (.object keywords) (.object others)
  check : m.check (.object keywords) = .ok ()

namespace Widened

variable {m m' : Matcher} {keywords others : Entries Json} {items : List Json} {place next : Place}
  {value : Json} (h : Widened m m' keywords others items)

include h

lemma inScope' : m'.InOneScope (.object others) where
  document := h.document'
  wellFormed := h.widens.wellFormed'
  keeps := h.widens.kept.keepsScope h.inScope.keeps

/-! ### Where matching goes -/

/-- A reference leads to the same. -/
lemma resolve?_eq {inner : Entries Json} (hoccurs : m.Occurs (.object inner)) {text : String}
    (htext : Draft.reference? inner = some text) :
    m'.document.resolve? plainScope text = m.document.resolve? plainScope text := by
  obtain ⟨path, hpath⟩ := hoccurs
  rw [h.inScope.root_eq] at hpath
  obtain ⟨original, horiginal, hsame⟩ := Document.exists_walk?_of_kept hpath
  rw [h.document', h.inScope.document]
  refine h.references.matched path original text horiginal ?_
  rw [← htext, Draft.reference?, Draft.reference?, hsame "$ref" (by decide)]

lemma resolve?_eq_of_mem_texts (hplace : m.Meets place) {text : String} (htext : text ∈ m.texts place) :
    m'.document.resolve? plainScope text = m.document.resolve? plainScope text := by
  obtain ⟨scope, schema⟩ := place
  obtain ⟨inner, hinner⟩ := exists_object_of_mem_leads (mem_texts.1 htext)
  obtain rfl : schema = .object inner := hinner
  exact h.resolve?_eq hplace.2 (reference?_of_mem_texts (h.inScope.wellFormed_of_meets hplace).1 htext)

lemma mem_leads_start {lead : Lead} : lead ∈ m.leads m.start
    ↔ ∃ entry ∈ effectiveKeywords .draft7 (Entries.erase "$schema" keywords),
      m.lead .draft7 (Entries.erase "$schema" keywords) entry = lead := by
  have hstart : m.start = (plainScope, .object (Entries.erase "$schema" keywords)) := h.inScope.start_eq
  have henter : plainScope.enter (Entries.erase "$schema" keywords) = plainScope :=
    h.inScope.keeps.enter_eq
  rw [hstart, mem_leads_object, henter]

lemma mem_leads_start' {lead : Lead} : lead ∈ m'.leads m'.start
    ↔ ∃ entry ∈ effectiveKeywords .draft7 (Entries.erase "$schema" others),
      m.lead .draft7 (Entries.erase "$schema" keywords) entry = lead := by
  have hstart : m'.start = (plainScope, .object (Entries.erase "$schema" others)) :=
    h.inScope'.start_eq
  have henter : plainScope.enter (Entries.erase "$schema" others) = plainScope :=
    h.inScope'.keeps.enter_eq
  rw [hstart, mem_leads_object, henter]
  refine exists_congr fun entry => and_congr_right fun _ => ?_
  rw [h.widens.kept.sameSiblings.lead_eq, h.alike.lead_eq]

omit h in
lemma lead_anyOf (schemas : List Json) :
    m.lead .draft7 keywords ("anyOf", .array schemas) = .schemas [] schemas :=
  lead_of_shape (by decide) (by decide) (by decide)

omit h in
/-- A default leads nowhere. -/
lemma lead_default (argument : Json) : m.lead .draft7 keywords ("default", argument) = .nothing := by
  have hextension : isExtension "default" = false := by decide
  rw [lead, read?_eq_none hextension]
  rfl

/-- The union leads to one more member; all other keywords lead where they led. -/
lemma leads_cases {lead : Lead} (hlead : lead ∈ m'.leads m'.start) : lead ∈ m.leads m.start
    ∨ lead = .schemas [] (items ++ [nullSchema]) ∧ .schemas [] items ∈ m.leads m.start := by
  obtain ⟨entry, hentry, rfl⟩ := h.mem_leads_start'.1 hlead
  rcases h.widens.kept.mem_effectiveKeywords_cases hentry with ⟨-, hold⟩ | ⟨hreference, rfl⟩
  · exact Or.inl (h.mem_leads_start.2 ⟨entry, hold, rfl⟩)
  · exact Or.inr ⟨lead_anyOf _,
      h.mem_leads_start.2 ⟨_, h.widens.kept.union_mem hreference, lead_anyOf _⟩⟩

lemma leads_of {lead : Lead} (hlead : lead ∈ m.leads m.start) : lead ∈ m'.leads m'.start
    ∨ lead = .schemas [] items ∧ .schemas [] (items ++ [nullSchema]) ∈ m'.leads m'.start
    ∨ lead = .nothing := by
  obtain ⟨entry, hentry, rfl⟩ := h.mem_leads_start.1 hlead
  rcases h.widens.kept.mem_effectiveKeywords_cases' hentry with ⟨-, hnew⟩ | ⟨hreference, rfl⟩ | rfl
  · exact Or.inl (h.mem_leads_start'.2 ⟨entry, hnew, rfl⟩)
  · exact Or.inr (Or.inl ⟨lead_anyOf _,
      h.mem_leads_start'.2 ⟨_, h.widens.kept.widened_mem hreference, lead_anyOf _⟩⟩)
  · exact Or.inr (Or.inr (lead_default _))

/-- From the document, matching goes on to what it went on to, and to the new member. -/
lemma successors_cases (hnext : next ∈ m'.successors m'.start) :
    next ∈ m.successors m.start ∨ next = (plainScope, nullSchema) := by
  have hinner := h.inScope.inner_eq h.inScope.meets_start
  have hinner' := h.inScope'.inner_eq h.inScope'.meets_start
  rcases List.mem_append.1 hnext with hpart | htarget
  · obtain ⟨patterns, schemas, hlead, hschema, hscope⟩ := mem_parts.1 hpart
    rw [hinner', ← hinner] at hscope
    rcases h.leads_cases hlead with hlead | ⟨hlead, hold⟩
    · exact Or.inl (List.mem_append_left _ (mem_parts.2 ⟨patterns, schemas, hlead, hschema, hscope⟩))
    · obtain ⟨rfl, rfl⟩ := Lead.schemas.inj hlead
      rcases List.mem_append.1 hschema with hschema | hschema
      · exact Or.inl (List.mem_append_left _ (mem_parts.2 ⟨_, _, hold, hschema, hscope⟩))
      · exact Or.inr (Prod.ext (hscope.trans hinner) (List.mem_singleton.1 hschema))
  · obtain ⟨text, htext, target, hresolve, rfl⟩ := mem_targets.1 htarget
    rcases h.leads_cases (mem_texts.1 htext) with hlead | ⟨hlead, -⟩
    · have htext := mem_texts.2 hlead
      rw [hinner', h.resolve?_eq_of_mem_texts h.inScope.meets_start htext, ← hinner] at hresolve
      exact Or.inl (List.mem_append_right _ (mem_targets.2 ⟨text, htext, target, hresolve, rfl⟩))
    · simp at hlead

lemma successors_subset : m.successors m.start ⊆ m'.successors m'.start := by
  intro next hnext
  have hinner := h.inScope.inner_eq h.inScope.meets_start
  have hinner' := h.inScope'.inner_eq h.inScope'.meets_start
  rcases List.mem_append.1 hnext with hpart | htarget
  · obtain ⟨patterns, schemas, hlead, hschema, hscope⟩ := mem_parts.1 hpart
    rw [hinner, ← hinner'] at hscope
    rcases h.leads_of hlead with hlead | ⟨hlead, hnew⟩ | hlead
    · exact List.mem_append_left _ (mem_parts.2 ⟨patterns, schemas, hlead, hschema, hscope⟩)
    · obtain ⟨rfl, rfl⟩ := Lead.schemas.inj hlead
      exact List.mem_append_left _ (mem_parts.2
        ⟨_, _, hnew, List.mem_append_left _ hschema, hscope⟩)
    · simp at hlead
  · obtain ⟨text, htext, target, hresolve, rfl⟩ := mem_targets.1 htarget
    rcases h.leads_of (mem_texts.1 htext) with hlead | ⟨hlead, -⟩ | hlead
    · rw [hinner, ← h.resolve?_eq_of_mem_texts h.inScope.meets_start htext, ← hinner'] at hresolve
      exact List.mem_append_right _ (mem_targets.2 ⟨text, mem_texts.2 hlead, target, hresolve, rfl⟩)
    · simp at hlead
    · simp at hlead

/-! ### The check -/

lemma isSound (hplace : Graph.Leads m.successors m.start place) : m.isSound place = true :=
  sound_of_check h.inScope.document h.inScope.wellFormed
    (h.inScope.rooted h.inScope.meets_start).refersFromRoot h.check hplace

lemma isSome_resolve? (hplace : Graph.Leads m.successors m.start place) {text : String}
    (htext : text ∈ m.texts place) : (m.document.resolve? plainScope text).isSome = true := by
  have hsound := h.isSound hplace
  rw [Matcher.isSound, Bool.and_eq_true, List.all_eq_true] at hsound
  have hlead := hsound.2 _ (mem_texts.1 htext)
  rwa [h.inScope.inner_eq (h.inScope.meets_of_leads h.inScope.meets_start hplace)] at hlead

section Inside

variable (hplace : place ∈ m.successors m.start)

include hplace

/-- Inside the document, both matchers look at the same. -/
lemma twins : Twins m m' place place where
  alike := h.alike
  draft := by rw [h.inScope.rootScope_eq, h.inScope'.rootScope_eq]
  rooted := h.inScope.rooted (h.inScope.meets_of_mem_successors h.inScope.meets_start hplace)
  rooted' := h.inScope'.rooted
    (h.inScope'.meets_of_mem_successors h.inScope'.meets_start (h.successors_subset hplace))
  bare := rfl

lemma targets_eq {met : Place} (hmet : Graph.Leads m.successors place met) {text : String}
    (htext : text ∈ m.texts met) : ∃ target,
      m.document.resolve? m.document.rootScope text = some target
        ∧ m'.document.resolve? m'.document.rootScope text = some target := by
  have hleads : Graph.Leads m.successors m.start met := Relation.ReflTransGen.head hplace hmet
  obtain ⟨target, htarget⟩ := Option.isSome_iff_exists.1 (h.isSome_resolve? hleads htext)
  have hsame := h.resolve?_eq_of_mem_texts (h.inScope.meets_of_leads h.inScope.meets_start hleads) htext
  rw [h.inScope.rootScope_eq, h.inScope'.rootScope_eq, hsame]
  exact ⟨target, htarget, htarget⟩

lemma sameTargets : SameTargets m m' place := fun _ hmet _ htext => by
  obtain ⟨target, htarget, htarget'⟩ := h.targets_eq hplace hmet htext
  exact ⟨target, target, htarget, htarget', rfl⟩

/-- **Inside the document nothing changes**: both matchers find the same wrong. -/
lemma judge_eq (steps : ℕ) (value : Json) :
    m.judge steps place.1 place.2 value = m'.judge steps place.1 place.2 value :=
  judge_eq_of_twins h.inScope.listed h.inScope.wellFormed_root (h.twins hplace) (h.sameTargets hplace)
    (h.inScope.wellFormed_of_meets
      (h.inScope.meets_of_mem_successors h.inScope.meets_start hplace)) value

lemma isSound_inside (hnext : Graph.Leads m'.successors place next) : m'.isSound next = true := by
  refine sound_of_soundIn (h.twins hplace) (fun met hmet text htext => ?_) (fun met hmet => ?_) hnext
  · obtain ⟨target, htarget, htarget'⟩ := h.targets_eq hplace hmet htext
    refine ⟨target, htarget, fun other hother => ?_⟩
    rw [Option.some.inj (htarget'.symm.trans hother)]
  · refine ⟨h.isSound (Relation.ReflTransGen.head hplace hmet), fun text htext => ?_⟩
    obtain ⟨target, -, htarget'⟩ := h.targets_eq hplace hmet htext
    rw [htarget']
    rfl

end Inside

omit h in
lemma leads_nullSchema : m.leads (plainScope, nullSchema) = [.schemas [] []] := by
  have htype : m.lead .draft7 (Fragment.ofKind .null).keywords ("type", .string "null")
      = .schemas [] [] := lead_of_shape (by decide) (by decide) (by decide)
  exact congrArg (· :: []) htype

omit h in
lemma texts_nullSchema : m.texts (plainScope, nullSchema) = [] := by
  rw [texts, leads_nullSchema]
  rfl

omit h in
/-- The schema of `null` leads nowhere. -/
lemma eq_of_leads_nullSchema (hnext : Graph.Leads m.successors (plainScope, nullSchema) next) :
    next = (plainScope, nullSchema) := by
  rcases hnext.cases_head with heq | ⟨other, hother, -⟩
  · exact heq.symm
  · have hother : other ∈ m.successors (plainScope, nullSchema) := hother
    rw [successors, parts, targets, texts_nullSchema, leads_nullSchema] at hother
    exact absurd hother List.not_mem_nil

omit h in
lemma isSound_nullSchema : m.isSound (plainScope, nullSchema) = true := by
  rw [Matcher.isSound, leads_nullSchema]
  rfl

/-- **The document with the wider union** can be matched against. -/
theorem check' : m'.check (.object others) = .ok () := by
  have hdraft : m'.document.scope.draft = .draft7 := by rw [h.document', Plan.scope_ofJson]
  have hscope : m.document.scope.draft = .draft7 := by rw [h.inScope.document, Plan.scope_ofJson]
  obtain ⟨hschema, hclosed, -⟩ := check_eq_ok_iff.1 h.check
  have hsound : ∀ place, Graph.Leads m'.successors m'.start place → m'.isSound place = true := by
    intro place hplace
    rcases hplace.cases_head with rfl | ⟨next, hnext, hleads⟩
    · have hsound := h.isSound .refl
      have hinner := h.inScope.inner_eq h.inScope.meets_start
      have hinner' := h.inScope'.inner_eq h.inScope'.meets_start
      rw [Matcher.isSound, Bool.and_eq_true, List.all_eq_true] at hsound ⊢
      refine ⟨by rw [h.inScope'.start_eq]; rfl, fun lead hlead => ?_⟩
      rcases h.leads_cases hlead with hold | ⟨rfl, -⟩
      · have hlead' := hsound.2 lead hold
        cases lead with
        | reference text =>
          rw [hinner', Lead.isSound, h.resolve?_eq_of_mem_texts h.inScope.meets_start (mem_texts.2 hold)]
          rwa [hinner] at hlead'
        | _ => exact hlead'
      · rfl
    · rcases h.successors_cases hnext with hold | rfl
      · exact h.isSound_inside hold hleads
      · rw [eq_of_leads_nullSchema hleads]
        exact isSound_nullSchema
  refine check_eq_ok_iff.2 ⟨?_, ?_, reach_ok hsound _ _⟩
  · rw [hdraft]
    exact h.widens.isSchema (hscope ▸ hschema)
  · rw [h.inScope.document, Document.isClosed_iff_of_keepsScope h.inScope.wellFormed h.inScope.keeps]
      at hclosed
    rw [h.document', Document.isClosed_iff_of_keepsScope h.inScope'.wellFormed h.inScope'.keeps]
    intro site hsite text htext
    obtain ⟨other, hother, hreference⟩ :=
      h.widens.kept.references_of_sites h.inScope.keeps hsite htext
    exact hclosed other hother text hreference

/-! ### The verdict -/

lemma allows_iff {entry : String × Json} {steps : ℕ}
    (hentry : entry ∈ effectiveKeywords .draft7 (Entries.erase "$schema" keywords)) :
    m'.Allows (m'.judge steps) plainScope (Entries.erase "$schema" others) entry value
      ↔ m.Allows (m.judge steps) plainScope (Entries.erase "$schema" keywords) entry value := by
  have hlead := h.mem_leads_start.2 ⟨entry, hentry, rfl⟩
  have hinner := h.inScope.inner_eq h.inScope.meets_start
  rw [Allows, Allows, h.widens.kept.sameSiblings.keywordViolations_eq]
  refine Eq.congr (keywordViolations_congr h.alike rfl (Entries.lookup_of_mem h.widens.kept.wellFormed.1
    (mem_of_mem_effectiveKeywords hentry)) ?_ ?_).symm rfl
  · intro text htext
    have htext : text ∈ m.texts m.start := mem_texts.2 (htext ▸ hlead)
    obtain ⟨target, htarget⟩ := Option.isSome_iff_exists.1 (h.isSome_resolve? .refl htext)
    have htarget' := (h.resolve?_eq_of_mem_texts h.inScope.meets_start htext).trans htarget
    refine followReference_congr htarget htarget' rfl (h.judge_eq (List.mem_append_right _
      (mem_targets.2 ⟨text, htext, target, by rw [hinner, htarget], rfl⟩)) steps value)
  · intro patterns schemas hschemas schema hschema inner _
    have hpart : (plainScope, schema) ∈ m.parts m.start :=
      mem_parts.2 ⟨patterns, schemas, hschemas ▸ hlead, hschema, hinner.symm⟩
    exact h.judge_eq (List.mem_append_left _ hpart) steps inner

omit h in
/-- A default asks nothing. -/
lemma allows_default {judge : Judge} {keywords : Entries Json} {argument : Json} :
    m.Allows judge plainScope keywords ("default", argument) value := by
  have hextension : isExtension "default" = false := by decide
  have hshape : plainScope.draft.shape? "default" = none := by decide
  simp [Allows, keywordViolations, read?_eq_none hextension, hshape]

omit h in
lemma judge_nullSchema {steps : ℕ} :
    m.judge (steps + 1) plainScope nullSchema value = [] ↔ value = .null := by
  have hallows : m.Passes (steps + 1) plainScope nullSchema value
      ↔ ∀ entry ∈ [("type", Json.string "null")],
        m.Allows (m.judge steps) plainScope [("type", .string "null")] entry value :=
    passes_iff_allows rfl
  refine hallows.trans ?_
  rw [List.forall_mem_singleton, allows_type rfl]
  cases value <;> simp [hasType]

/-- The union allows `null`, and what it allowed. -/
lemma allows_union_iff {steps : ℕ}
    (hreference : Draft.reference? (Entries.erase "$schema" keywords) = none) :
    m'.Allows (m'.judge (steps + 1)) plainScope (Entries.erase "$schema" others)
        ("anyOf", .array (items ++ [nullSchema])) value
      ↔ value = .null ∨ m.Allows (m.judge (steps + 1)) plainScope (Entries.erase "$schema" keywords)
        ("anyOf", .array items) value := by
  have hinner := h.inScope.inner_eq h.inScope.meets_start
  have hlead : .schemas [] items ∈ m.leads m.start :=
    h.mem_leads_start.2 ⟨_, h.widens.kept.union_mem hreference, lead_anyOf items⟩
  have hold : ∀ item ∈ items, m'.judge (steps + 1) plainScope item value = []
      ↔ m.judge (steps + 1) plainScope item value = [] := by
    intro item hitem
    have hpart : (plainScope, item) ∈ m.parts m.start :=
      mem_parts.2 ⟨[], items, hlead, hitem, hinner.symm⟩
    rw [h.judge_eq (List.mem_append_left _ hpart)]
  rw [allows_anyOf, allows_anyOf]
  constructor
  · rintro ⟨item, hitem, hpasses⟩
    rcases List.mem_append.1 hitem with hitem | hitem
    · exact Or.inr ⟨item, hitem, (hold item hitem).1 hpasses⟩
    · rw [List.mem_singleton.1 hitem] at hpasses
      exact Or.inl (judge_nullSchema.1 hpasses)
  · rintro (rfl | ⟨item, hitem, hpasses⟩)
    · exact ⟨nullSchema, List.mem_append_right _ (List.mem_singleton_self _), judge_nullSchema.2 rfl⟩
    · exact ⟨item, List.mem_append_left _ hitem, (hold item hitem).2 hpasses⟩

/-- With the wider union, the steps are not fewer. -/
lemma exists_budget (value : Json) : ∃ steps, m'.budget value = steps + 2
    ∧ m.budget value ≤ steps + 2 := by
  have hroot : m.document.root = .object (Entries.erase "$schema" keywords) := h.inScope.root_eq
  have hroot' : m'.document.root = .object (Entries.erase "$schema" others) := h.inScope'.root_eq
  have hless : m.budget value ≤ m'.budget value := by
    rw [budget, budget, hroot, hroot']
    exact Nat.mul_le_mul_right _ (Nat.succ_le_succ h.widens.kept.positions_le)
  have htwo : 2 ≤ m'.budget value :=
    Nat.le_trans (Nat.le_add_left 2 value.depth) (Nat.le_mul_of_pos_left _ (Nat.succ_pos _))
  exact ⟨m'.budget value - 2, by omega, by omega⟩

/-- **The verdict.**  If matching does not go in circles, and only the union has something against
`null`, then the document with the wider union accepts what was accepted, and `null`. -/
theorem accepts_iff (hstraight : m.Straight m.start)
    (hnull : ∀ violation ∈ m.violations .null, violation.schemaRoute = ["anyOf"]) (value : Json) :
    m'.accepts value = true ↔ value = .null ∨ m.accepts value = true := by
  obtain ⟨steps, hbudget', hbudget⟩ := h.exists_budget value
  have hsettled := violations_eq_of_budget_le h.inScope.listed h.inScope.wellFormed_root
    (h.inScope.rooted h.inScope.meets_start) hstraight hbudget
  have haccepts : m.accepts value = true
      ↔ ∀ entry ∈ effectiveKeywords .draft7 (Entries.erase "$schema" keywords),
        m.Allows (m.judge (steps + 1)) plainScope (Entries.erase "$schema" keywords) entry value := by
    rw [accepts, ← hsettled, List.isEmpty_iff, h.inScope.judge_eq_nodeViolations]
    exact List.flatMap_eq_nil_iff
  have haccepts' : m'.accepts value = true
      ↔ ∀ entry ∈ effectiveKeywords .draft7 (Entries.erase "$schema" others),
        m'.Allows (m'.judge (steps + 1)) plainScope (Entries.erase "$schema" others) entry value := by
    rw [accepts, violations, violationsOf, hbudget', List.isEmpty_iff,
      h.inScope'.judge_eq_nodeViolations]
    exact List.flatMap_eq_nil_iff
  rw [haccepts, haccepts']
  -- beside the union the same is asked, and `null` has that
  constructor
  · intro hall
    by_cases hvalue : value = .null
    · exact Or.inl hvalue
    · refine Or.inr fun entry hentry => ?_
      rcases h.widens.kept.mem_effectiveKeywords_cases' hentry with ⟨-, hnew⟩ | ⟨hreference, rfl⟩ | rfl
      · exact (h.allows_iff hentry).1 (hall entry hnew)
      · exact ((h.allows_union_iff hreference).1
          (hall _ (h.widens.kept.widened_mem hreference))).resolve_left hvalue
      · exact allows_default
  · intro hallowed entry hentry
    rcases h.widens.kept.mem_effectiveKeywords_cases hentry with ⟨hkey, hold⟩ | ⟨hreference, rfl⟩
    · refine (h.allows_iff hold).2 (hallowed.elim (fun hvalue => ?_) fun hall => hall entry hold)
      subst hvalue
      refine List.eq_nil_iff_forall_not_mem.2 fun violation hviolation => hkey ?_
      refine eq_anyOf_of_mem_keywordViolations hviolation (hnull violation ?_)
      rw [← hsettled, h.inScope.judge_eq_nodeViolations]
      exact List.mem_flatMap.2 ⟨entry, hold, hviolation⟩
    · exact (h.allows_union_iff hreference).2
        (hallowed.imp id fun hall => hall _ (h.widens.kept.union_mem hreference))

end Widened

end Matcher

end SchemaAlgebra
