import Mathlib.Data.List.Forall2
import SchemaAlgebra.Proofs.Scopes

/-!
# Documents that require other names

One document may be like another but for the names that some schemas require, namely the document itself
or, if it is a union, members of the union (`Json.Revises`).  References then lead to the same places in
both, as all that they are read by is the same.

* `Site.forall₂_ofArgument` — the schemas of the two documents correspond, in order.
* **`Document.Revises.resolve?`** — what a reference names in one document it names in the other, unless
  that is within a list of required names.
-/

namespace SchemaAlgebra

/-! ## Required names -/

/-- The names that a schema requires. -/
def namesRequired (keywords : Entries Json) : List String :=
  (((Entries.lookup "required" keywords).bind Json.items?).getD []).filterMap Json.string?

/-- What a schema requires is a list of names. -/
def RequiresNames (keywords : Entries Json) : Prop :=
  ∀ argument ∈ Entries.lookup "required" keywords,
    ∃ names : List String, argument = .array (names.map .string)

namespace Json

/-- A name, or a list of names: there are no schemas in it. -/
def IsNames (value : Json) : Prop :=
  (∃ name, value = .string name) ∨ ∃ names : List String, value = .array (names.map .string)

/-- **Revisions.**  A value is like another one, but that it may require other names; which ones is for `R`
to say.  This goes for the value itself, and for the members of a union. -/
inductive Revises (R : List String → List String → Prop) : Json → Json → Prop
  | same (value) : Revises R value value
  | array {items others : List Json} : items.length = others.length →
      (∀ (index : ℕ) item other, items[index]? = some item → others[index]? = some other →
        Revises R item other) → Revises R (.array items) (.array others)
  | required {keywords others} : Entries.erase "required" keywords = Entries.erase "required" others →
      RequiresNames keywords → RequiresNames others → R (namesRequired keywords) (namesRequired others) →
      Revises R (.object keywords) (.object others)
  | union {before after members others} : Revises R members others →
      Revises R (.object (before ++ ("anyOf", members) :: after))
        (.object (before ++ ("anyOf", others) :: after))

variable {R : List String → List String → Prop} {value other : Json}

lemma Revises.flip (h : Revises R value other) : Revises (flip R) other value := by
  induction h with
  | same value => exact .same value
  | array hlength _ ih =>
    exact .array hlength.symm fun index item other hitem hother => ih index other item hother hitem
  | required herase hnames hnames' hR => exact .required herase.symm hnames' hnames hR
  | union _ ih => exact .union ih

end Json

/-! ## Keywords -/

section

variable {α : Type} {before after : Entries α} {a b : α} {key keyword : String}

/-- An entry that says something else is found where the entry was. -/
lemma Entries.lookup_replaced (key keyword : String) (before after : Entries α) (a b : α) :
    Entries.lookup key (before ++ (keyword, a) :: after)
        = Entries.lookup key (before ++ (keyword, b) :: after)
      ∨ key = keyword ∧ Entries.lookup key (before ++ (keyword, a) :: after) = some a
        ∧ Entries.lookup key (before ++ (keyword, b) :: after) = some b := by
  induction before with
  | nil =>
    by_cases hkey : keyword = key
    · subst hkey
      exact Or.inr ⟨rfl, Entries.lookup_cons_self _ _ _, Entries.lookup_cons_self _ _ _⟩
    · exact Or.inl (by rw [List.nil_append, List.nil_append, Entries.lookup_cons_of_ne hkey,
        Entries.lookup_cons_of_ne hkey])
  | cons entry before ih =>
    obtain ⟨k, v⟩ := entry
    by_cases hkey : k = key
    · subst hkey
      exact Or.inl ((Entries.lookup_cons_self _ _ _).trans (Entries.lookup_cons_self _ _ _).symm)
    · simp only [List.cons_append, Entries.lookup_cons_of_ne hkey]
      exact ih

lemma Entries.lookup_replaced_of_ne (hkey : key ≠ keyword) (before after : Entries α) (a b : α) :
    Entries.lookup key (before ++ (keyword, a) :: after)
      = Entries.lookup key (before ++ (keyword, b) :: after) :=
  (Entries.lookup_replaced key keyword before after a b).resolve_right fun h => hkey h.1

end

namespace Json.Revises

variable {R : List String → List String → Prop} {keywords others : Entries Json}
  (h : Revises R (.object keywords) (.object others))

include h

/-- Nothing else is said anew. -/
lemma lookup_eq {key : String} (hunion : key ≠ "anyOf") (hrequired : key ≠ "required") :
    Entries.lookup key keywords = Entries.lookup key others := by
  cases h with
  | same => rfl
  | required herase =>
    rw [← Document.lookup_erase_of_ne hrequired, herase, Document.lookup_erase_of_ne hrequired]
  | union => exact Entries.lookup_replaced_of_ne hunion _ _ _ _

lemma reference?_eq : Draft.reference? keywords = Draft.reference? others := by
  rw [Draft.reference?, Draft.reference?, h.lookup_eq (by decide) (by decide)]

lemma identifier?_eq (draft : Draft) : draft.identifier? keywords = draft.identifier? others := by
  have hid : ∀ key ∈ ["id", "$id"], Entries.lookup key keywords = Entries.lookup key others := by
    intro key hkey
    refine h.lookup_eq ?_ ?_ <;> · rintro rfl; revert hkey; decide
  rw [Draft.identifier?, Draft.identifier?, h.reference?_eq, hid _ (by split <;> decide)]

lemma anchors_eq (draft : Draft) : draft.anchors keywords = draft.anchors others := by
  simp only [Draft.anchors, h.identifier?_eq, List.filterMap_cons, List.filterMap_nil,
    h.lookup_eq (show "$anchor" ≠ "anyOf" by decide) (by decide),
    h.lookup_eq (show "$dynamicAnchor" ≠ "anyOf" by decide) (by decide)]

lemma enter_eq (scope : Scope) : scope.enter keywords = scope.enter others := by
  simp only [Scope.enter, h.identifier?_eq,
    h.lookup_eq (show "$schema" ≠ "anyOf" by decide) (by decide)]

lemma lookup_required : Entries.lookup "required" keywords = Entries.lookup "required" others
    ∨ RequiresNames keywords ∧ RequiresNames others := by
  cases h with
  | same => exact Or.inl rfl
  | required _ hnames hnames' => exact Or.inr ⟨hnames, hnames'⟩
  | union => exact Or.inl (Entries.lookup_replaced_of_ne (by decide) _ _ _ _)

/-- Fewer names are required, if `R` says so. -/
lemma namesRequired_subset (hR : ∀ names fewer, R names fewer → fewer ⊆ names) :
    namesRequired others ⊆ namesRequired keywords := by
  cases h with
  | same => exact List.Subset.refl _
  | required _ _ _ hnames => exact hR _ _ hnames
  | union =>
    rw [namesRequired, namesRequired, Entries.lookup_replaced_of_ne (by decide) _ _ _ _]
    exact List.Subset.refl _

lemma exists_lookup_anyOf {members : Json} (hlookup : Entries.lookup "anyOf" others = some members) :
    ∃ union, Entries.lookup "anyOf" keywords = some union ∧ Revises R union members := by
  cases h with
  | same => exact ⟨members, hlookup, .same _⟩
  | required herase =>
    have hne : "anyOf" ≠ "required" := by decide
    refine ⟨members, ?_, .same _⟩
    rw [← Document.lookup_erase_of_ne hne, herase, Document.lookup_erase_of_ne hne, hlookup]
  | @union before after union _ hmembers =>
    rcases Entries.lookup_replaced "anyOf" "anyOf" before after union _ with hsame | ⟨-, hold, hnew⟩
    · exact ⟨members, hsame.trans hlookup, .same _⟩
    · obtain rfl := Option.some.inj (hnew.symm.trans hlookup)
      exact ⟨union, hold, hmembers⟩

end Json.Revises

lemma Json.revises_array {R : List String → List String → Prop} {items others : List Json}
    (h : List.Forall₂ (Json.Revises R) items others) : Json.Revises R (.array items) (.array others) := by
  refine .array h.length_eq fun index item other hitem hother => ?_
  obtain ⟨hindex, rfl⟩ := List.getElem?_eq_some_iff.1 hitem
  obtain ⟨hindex', rfl⟩ := List.getElem?_eq_some_iff.1 hother
  exact h.get hindex hindex'

lemma Json.Revises.exists_object {R : List String → List String → Prop} {keywords : Entries Json}
    {other : Json} (h : Json.Revises R (.object keywords) other) : ∃ others, other = .object others := by
  cases h <;> exact ⟨_, rfl⟩

lemma Json.Revises.members?_reference_eq {R : List String → List String → Prop} {value other : Json}
    (h : Json.Revises R value other) :
    value.members?.bind Draft.reference? = other.members?.bind Draft.reference? := by
  cases h with
  | same | array => rfl
  | required herase hnames hnames' hR => exact (Json.Revises.required herase hnames hnames' hR).reference?_eq
  | union hmembers => exact (Json.Revises.union hmembers).reference?_eq

lemma Json.Revises.exists_item {R : List String → List String → Prop} {value other item : Json}
    (h : Json.Revises R value other) {index : ℕ} (hitem : ((value.items?).getD [])[index]? = some item) :
    ∃ new, ((other.items?).getD [])[index]? = some new ∧ Json.Revises R item new := by
  cases h with
  | same => exact ⟨item, hitem, .same _⟩
  | array hlength hitems =>
    have hnew := List.getElem?_eq_getElem (hlength ▸ (List.getElem?_eq_some_iff.1 hitem).1)
    exact ⟨_, hnew, hitems index item _ hitem hnew⟩
  | required | union => simp [Json.items?] at hitem

/-! ## Sites -/

namespace Site

variable {R : List String → List String → Prop}

/-- A schema stands where another one does that it revises. -/
structure Revises (R : List String → List String → Prop) (site other : Site) : Prop where
  outer : site.outer = other.outer
  path : site.path = other.path
  keywords : Json.Revises R (.object site.keywords) (.object other.keywords)

lemma Revises.inner_eq {site other : Site} (h : Revises R site other) : site.inner = other.inner := by
  rw [inner, inner, h.outer, h.keywords.enter_eq]

lemma ofKeywords_append (scope : Scope) (path : List String) (keywords others : Entries Json) :
    ofKeywords scope path (keywords ++ others)
      = ofKeywords scope path keywords ++ ofKeywords scope path others := by
  induction keywords with
  | nil => rfl
  | cons entry keywords ih =>
    obtain ⟨keyword, argument⟩ := entry
    rw [List.cons_append, ofKeywords, ofKeywords, ih, List.append_assoc]

/-- There are no schemas in what is required. -/
lemma ofKeywords_erase (scope : Scope) (path : List String) (keywords : Entries Json) :
    ofKeywords scope path (Entries.erase "required" keywords) = ofKeywords scope path keywords := by
  have hshape : ∀ draft : Draft, ∃ nonEmpty, draft.shape? "required" = some (.names nonEmpty) := by
    intro draft
    cases draft <;> exact ⟨_, rfl⟩
  induction keywords with
  | nil => rfl
  | cons entry keywords ih =>
    obtain ⟨keyword, argument⟩ := entry
    by_cases hkeyword : keyword = "required"
    · subst hkeyword
      obtain ⟨nonEmpty, hnames⟩ := hshape scope.draft
      have herase : Entries.erase "required" (("required", argument) :: keywords)
          = Entries.erase "required" keywords := by simp [Entries.erase]
      rw [herase, ih, ofKeywords, hnames]
      simp [ofArgument]
    · have herase : Entries.erase "required" ((keyword, argument) :: keywords)
          = (keyword, argument) :: Entries.erase "required" keywords := by simp [Entries.erase, hkeyword]
      rw [herase, ofKeywords, ofKeywords, ih]

lemma forall₂_same (sites : List Site) : List.Forall₂ (Revises R) sites sites :=
  List.forall₂_same.2 fun _ _ => ⟨rfl, rfl, .same _⟩

lemma forall₂_ofItems {scope : Scope} {path : List String} {first : ℕ} {items others : List Json}
    (hlength : items.length = others.length)
    (h : ∀ (index : ℕ) item other path, items[index]? = some item → others[index]? = some other →
      List.Forall₂ (Revises R) (ofArgument scope path .schema item) (ofArgument scope path .schema other)) :
    List.Forall₂ (Revises R) (ofItems scope path first items) (ofItems scope path first others) := by
  induction items generalizing others first with
  | nil =>
    obtain rfl := List.length_eq_zero_iff.1 hlength.symm
    exact .nil
  | cons item items ih =>
    cases others with
    | nil => simp at hlength
    | cons other others =>
      rw [ofItems, ofItems]
      exact List.rel_append (h 0 item other _ rfl rfl) (ih (Nat.succ.inj hlength) fun index item other path =>
        h (index + 1) item other path)

/-- **The schemas of a document** correspond to those of one that it revises. -/
lemma forall₂_ofArgument {value other : Json} (h : Json.Revises R value other) (scope : Scope)
    (path : List String) {shape : Shape} (hshape : shape = .schema ∨ shape = .schemas) :
    List.Forall₂ (Revises R) (ofArgument scope path shape value) (ofArgument scope path shape other) := by
  induction h generalizing scope path shape with
  | same => exact forall₂_same _
  | array hlength _ ih =>
    rcases hshape with rfl | rfl
    · simp [ofArgument]
    · simp only [ofArgument]
      exact forall₂_ofItems hlength fun index item other path hitem hother =>
        ih index item other hitem hother scope path (Or.inl rfl)
  | @required keywords others herase hnames hnames' hR =>
    have hrevises : Json.Revises R (.object keywords) (.object others) := .required herase hnames hnames' hR
    rcases hshape with rfl | rfl
    · simp only [ofArgument]
      rw [← ofKeywords_erase _ _ keywords, ← ofKeywords_erase _ _ others, herase, hrevises.enter_eq]
      exact .cons ⟨rfl, rfl, hrevises⟩ (forall₂_same _)
    · simp [ofArgument]
  | @union before after members others hmembers ih =>
    have hrevises : Json.Revises R (.object (before ++ ("anyOf", members) :: after))
        (.object (before ++ ("anyOf", others) :: after)) := .union hmembers
    have hunion : ∀ draft : Draft, draft.shape? "anyOf" = some .schemas := by
      intro draft
      cases draft <;> rfl
    rcases hshape with rfl | rfl
    · simp only [ofArgument, ofKeywords_append, ofKeywords, hunion, hrevises.enter_eq]
      exact .cons ⟨rfl, rfl, hrevises⟩ (List.rel_append (forall₂_same _)
        (List.rel_append (ih _ _ (Or.inr rfl)) (forall₂_same _)))
    · simp [ofArgument]

end Site

/-! ## Locations -/

namespace Location

variable {R : List String → List String → Prop} {location other next : Location}

/-- A value stands where another one does that it revises. -/
structure Revises (R : List String → List String → Prop) (location other : Location) : Prop where
  scope : location.scope = other.scope
  path : location.path = other.path
  value : Json.Revises R location.value other.value

lemma Revises.flip (h : Revises R location other) : Revises (flip R) other location :=
  ⟨h.scope.symm, h.path.symm, h.value.flip⟩

lemma Revises.inner_eq (h : Revises R location other) : location.inner = other.inner := by
  obtain ⟨scope, path, value⟩ := location
  obtain ⟨scope', path', value'⟩ := other
  obtain ⟨rfl : scope = scope', rfl : path = path', hvalue : Json.Revises R value value'⟩ := h
  cases hvalue with
  | same | array => rfl
  | required herase hnames hnames' hR => exact (Json.Revises.required herase hnames hnames' hR).enter_eq scope
  | union hmembers => exact (Json.Revises.union hmembers).enter_eq scope

lemma isNames_of_step? {token : String} (h : location.value.IsNames)
    (hstep : location.step? token = some next) : next.value.IsNames := by
  unfold step? at hstep
  obtain ⟨name, hname⟩ | ⟨names, hnames⟩ := h
  · simp [hname] at hstep
  · simp only [hnames, Option.bind_eq_bind, Option.bind_eq_some_iff] at hstep
    obtain ⟨index, -, item, hitem, hnext⟩ := hstep
    obtain rfl := Option.some.inj hnext
    obtain ⟨name, -, rfl⟩ := List.mem_map.1 (List.mem_of_getElem? hitem)
    exact Or.inl ⟨name, rfl⟩

/-- A step down leads to corresponding places, or into what is required. -/
lemma Revises.step? (h : Revises R location other) {token : String}
    (hstep : location.step? token = some next) :
    (∃ further, other.step? token = some further ∧ Revises R next further) ∨ next.value.IsNames := by
  have hinner := h.inner_eq
  obtain ⟨scope, path, value⟩ := location
  obtain ⟨scope', path', value'⟩ := other
  obtain ⟨rfl : scope = scope', rfl : path = path', hvalue : Json.Revises R value value'⟩ := h
  -- a step from an object leads to whatever the other object has under the same key
  have hmember : ∀ {keywords others : Entries Json} {argument argument' : Json},
      value = .object keywords → value' = .object others → Entries.lookup token keywords = some argument →
      Entries.lookup token others = some argument' → Json.Revises R argument argument' →
      ∃ further, Location.step? ⟨scope, path, value'⟩ token = some further ∧ Revises R next further := by
    rintro keywords others argument argument' rfl rfl hlookup hlookup' hargument
    simp only [Location.step?, hlookup, Option.map_some, Option.some.injEq] at hstep
    subst hstep
    have hother : Location.step? ⟨scope, path, .object others⟩ token
        = some ⟨Location.inner ⟨scope, path, .object others⟩, path ++ [token], argument'⟩ := by
      simp only [Location.step?, hlookup', Option.map_some]
    exact ⟨_, hother, hinner, rfl, hargument⟩
  cases hvalue with
  | same => exact Or.inl ⟨next, hstep, rfl, rfl, .same _⟩
  | array hlength hitems =>
    refine Or.inl ?_
    simp only [Location.step?, Option.bind_eq_bind, Option.bind_eq_some_iff] at hstep ⊢
    obtain ⟨index, hindex, item, hitem, hnext⟩ := hstep
    obtain rfl := Option.some.inj hnext
    have hbound := (List.getElem?_eq_some_iff.1 hitem).1
    have hother := List.getElem?_eq_getElem (hlength ▸ hbound)
    exact ⟨_, ⟨index, hindex, _, hother, rfl⟩, rfl, rfl, hitems index item _ hitem hother⟩
  | @required keywords others herase hnames hnames' hR =>
    obtain ⟨argument, hlookup, hnext⟩ := Option.map_eq_some_iff.1
      (show (Entries.lookup token keywords).map _ = some next from hstep)
    by_cases htoken : token = "required"
    · obtain ⟨names, rfl⟩ := hnames argument (htoken ▸ hlookup)
      exact Or.inr (Or.inr ⟨names, hnext ▸ rfl⟩)
    · refine Or.inl (hmember rfl rfl hlookup ?_ (.same argument))
      rw [← Document.lookup_erase_of_ne htoken, ← herase, Document.lookup_erase_of_ne htoken, hlookup]
  | @union before after members others hmembers =>
    obtain ⟨argument, hlookup, -⟩ := Option.map_eq_some_iff.1
      (show (Entries.lookup token _).map _ = some next from hstep)
    refine Or.inl ?_
    -- only what stands under `anyOf` has changed
    rcases Entries.lookup_replaced token "anyOf" before after members others with hsame | ⟨-, hold, hnew⟩
    · exact hmember rfl rfl hlookup (hsame ▸ hlookup) (.same argument)
    · exact hmember rfl rfl hold hnew hmembers

lemma isNames_of_foldlM {tokens : List String} (h : location.value.IsNames)
    (hway : tokens.foldlM Location.step? location = some next) : next.value.IsNames :=
  of_foldlM (P := fun location => location.value.IsNames)
    (fun _ _ _ hnames hstep => isNames_of_step? hnames hstep) h hway

lemma Revises.foldlM (h : Revises R location other) {tokens : List String}
    (hway : tokens.foldlM Location.step? location = some next) :
    (∃ further, tokens.foldlM Location.step? other = some further ∧ Revises R next further)
      ∨ next.value.IsNames := by
  induction tokens generalizing location other with
  | nil =>
    obtain rfl := Option.some.inj hway
    exact Or.inl ⟨other, rfl, h⟩
  | cons token tokens ih =>
    obtain ⟨between, hstep, hrest⟩ := Option.bind_eq_some_iff.1 hway
    rcases h.step? hstep with ⟨between', hstep', hbetween⟩ | hnames
    · refine (ih hbetween hrest).imp_left fun ⟨further, hfurther, hnext⟩ => ⟨further, ?_, hnext⟩
      exact Option.bind_eq_some_iff.2 ⟨between', hstep', hfurther⟩
    · exact Or.inr (isNames_of_foldlM hnames hrest)

end Location

lemma Site.Revises.location {R : List String → List String → Prop} {site other : Site}
    (h : Site.Revises R site other) : Location.Revises R site.location other.location :=
  ⟨h.outer, h.path, h.keywords⟩

/-! ## References -/

/-- Of corresponding lists, corresponding entries are found first. -/
lemma find?_of_forall₂ {α : Type} {r : α → α → Prop} {p q : α → Bool} {items others : List α} {a : α}
    (h : List.Forall₂ r items others) (hpq : ∀ a b, r a b → p a = q b) (ha : items.find? p = some a) :
    ∃ b, others.find? q = some b ∧ r a b := by
  induction h with
  | nil => simp at ha
  | @cons first other _ _ hfirst _ ih =>
    rw [List.find?_cons] at ha ⊢
    rw [← hpq first other hfirst]
    cases hp : p first with
    | true =>
      rw [hp] at ha
      exact ⟨other, rfl, Option.some.inj ha ▸ hfirst⟩
    | false =>
      rw [hp] at ha
      exact ih ha

namespace Document

variable {R : List String → List String → Prop} {document other : Document} {location : Location}
  {uri : Uri}

/-- A document revises another one: their values do, and their schemas correspond. -/
structure Revises (R : List String → List String → Prop) (document other : Document) : Prop where
  scope : document.scope = other.scope
  root : Json.Revises R document.root other.root
  sites : List.Forall₂ (Site.Revises R) document.sites other.sites

lemma Revises.flip (h : Revises R document other) : Revises (flip R) other document where
  scope := h.scope.symm
  root := h.root.flip
  sites := h.sites.flip.imp fun _ _ hsite =>
    ⟨hsite.outer.symm, hsite.path.symm, hsite.keywords.flip⟩

lemma revises_kept {value value' : Json} (h : Json.Revises R value value') :
    Json.Revises R (kept value) (kept value') := by
  cases h with
  | same | array => first | exact .same _ | exact .array ‹_› ‹_›
  | @required keywords others herase hnames hnames' hR =>
    have hnone : ∀ keywords : Entries Json, Entries.lookup "required" (Entries.erase "$schema" keywords)
        = Entries.lookup "required" keywords := fun keywords => lookup_erase_of_ne (by decide) keywords
    refine .required ?_ ?_ ?_ ?_
    · have hcomm : ∀ keywords : Entries Json, Entries.erase "required" (Entries.erase "$schema" keywords)
          = Entries.erase "$schema" (Entries.erase "required" keywords) := fun keywords => by
        simp only [Entries.erase, List.filter_filter, Bool.and_comm]
      rw [hcomm, hcomm, herase]
    · rwa [RequiresNames, hnone]
    · rwa [RequiresNames, hnone]
    · rwa [namesRequired, namesRequired, hnone, hnone]
  | @union before after members others hmembers =>
    have herase : ∀ members : Json, kept (.object (before ++ ("anyOf", members) :: after))
        = .object (Entries.erase "$schema" before ++ ("anyOf", members) :: Entries.erase "$schema" after) :=
      fun members => by simp [kept, Entries.erase]
    rw [herase, herase]
    exact .union hmembers

lemma revises_ofJson {value value' : Json} (h : Json.Revises R value value') (draft : Draft) :
    Revises R (ofJson draft value) (ofJson draft value') where
  scope := rfl
  root := by
    rw [root_ofJson, root_ofJson]
    exact revises_kept h
  sites := by
    rw [sites_ofJson, sites_ofJson]
    exact Site.forall₂_ofArgument (revises_kept h) _ _ (Or.inl rfl)

namespace Revises

variable (h : Revises R document other)

include h

lemma rootLocation : Location.Revises R document.rootLocation other.rootLocation :=
  ⟨h.scope, rfl, h.root⟩

lemma rootScope_eq : document.rootScope = other.rootScope :=
  h.rootLocation.inner_eq

lemma resource? (hlocation : document.resource? uri = some location) :
    ∃ further, other.resource? uri = some further ∧ Location.Revises R location further := by
  unfold Document.resource? at hlocation ⊢
  rw [← h.scope, ← h.rootScope_eq]
  split at hlocation
  · obtain rfl := Option.some.inj hlocation
    rename_i hroot
    rw [if_pos hroot]
    exact ⟨_, rfl, h.rootLocation⟩
  · rename_i hroot
    rw [if_neg hroot]
    obtain ⟨site, hsite, rfl⟩ := Option.map_eq_some_iff.1 hlocation
    obtain ⟨further, hfurther, hrevises⟩ := find?_of_forall₂ h.sites (fun a b hab => by
      rw [hab.inner_eq, hab.keywords.identifier?_eq]) hsite
    exact ⟨further.location, by rw [hfurther]; rfl, hrevises.location⟩

lemma anchored? {name : String} (hlocation : document.anchored? uri name = some location) :
    ∃ further, other.anchored? uri name = some further ∧ Location.Revises R location further := by
  obtain ⟨site, hsite, rfl⟩ := Option.map_eq_some_iff.1 hlocation
  obtain ⟨further, hfurther, hrevises⟩ := find?_of_forall₂ h.sites (fun a b hab => by
    rw [hab.inner_eq, hab.keywords.anchors_eq, h.scope, h.rootScope_eq]) hsite
  exact ⟨further.location, by rw [Document.anchored?, hfurther]; rfl, hrevises.location⟩

/-- **References** lead to corresponding places, or into what is required. -/
lemma resolve? {scope : Scope} {reference : String}
    (hlocation : document.resolve? scope reference = some location) :
    (∃ further, other.resolve? scope reference = some further ∧ Location.Revises R location further)
      ∨ location.value.IsNames := by
  unfold Document.resolve? at hlocation ⊢
  obtain ⟨uri, huri, hlocation⟩ := Option.bind_eq_some_iff.1 hlocation
  rw [huri, Option.bind_eq_bind, Option.bind_some]
  dsimp only at hlocation ⊢
  split at hlocation
  · exact Or.inl (h.resource? hlocation)
  · exact Or.inl (h.resource? hlocation)
  · -- a pointer may lead into a list of required names
    obtain ⟨start, hstart, hlocation⟩ := Option.bind_eq_some_iff.1 hlocation
    obtain ⟨text, htext, hlocation⟩ := Option.bind_eq_some_iff.1 hlocation
    obtain ⟨tokens, htokens, hway⟩ := Option.bind_eq_some_iff.1 hlocation
    obtain ⟨start', hstart', hrevises⟩ := h.resource? hstart
    refine (hrevises.foldlM hway).imp_left fun ⟨further, hfurther, hnext⟩ => ⟨further, ?_, hnext⟩
    rw [hstart', htext]
    simp only [Option.bind_eq_bind, Option.bind_some, htokens, hfurther]
  · obtain ⟨name, hname, hlocation⟩ := Option.bind_eq_some_iff.1 hlocation
    obtain ⟨further, hfurther, hnext⟩ := h.anchored? hlocation
    exact Or.inl ⟨further, by rw [hname]; exact hfurther, hnext⟩

end Revises

end Document

end SchemaAlgebra
