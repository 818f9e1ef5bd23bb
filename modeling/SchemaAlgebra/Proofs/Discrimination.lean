import Mathlib.Data.List.Nodup
import SchemaAlgebra.Combinator.Union
import SchemaAlgebra.Proofs.Keywords

/-!
# Tagged unions discriminate

In each member of a tagged union the tag is required and fixed to a value of its own, so that a value
that the union accepts has the tag of one member, which accepts it, and no other member does.  In the
dialect of combinators a reference makes the keywords beside it void, though: a member that refers, or a
description that does, fixes nothing.

* `Fragment.variants_eq_ok_iff` — which lists of variants make a union, and of what members.
* `Fragment.tag_of_passes` — a member that makes no reference accepts only objects with its tag.
* `Fragment.taggedUnion_discriminates_iff` — a tagged union discriminates exactly if its members that
  refer do so too.
-/

namespace SchemaAlgebra

/-! ## What the keywords of a member demand -/

namespace Matcher

variable {m : Matcher} {judge : Judge} {scope : Scope} {keywords members : Entries Json}
  {argument value : Json}

section

variable (hscope : scope.draft = .draft7)

include hscope

lemma allows_const : m.Allows judge scope keywords ("const", argument) value
    ↔ isConstant argument value = true := by
  rw [allows_iff_of_shape (by decide) (by rw [hscope]; decide) (by decide)]
  simp [assert, apply, require_eq_nil]

/-- Names that are required are there, whatever else is listed. -/
lemma contains_of_allows_required {names : List Json} {name : String}
    (h : m.Allows judge scope keywords ("required", .array names) (.object members))
    (hname : .string name ∈ names) : Entries.contains name members = true := by
  have hrequired := (allows_iff_assert hscope (by decide)).1 h
  simp only [assert, lacking, List.flatMap_eq_nil_iff, require_eq_nil] at hrequired
  exact hrequired name (List.mem_filterMap.2 ⟨_, hname, rfl⟩)

end

end Matcher

/-! ## The members of a tagged union -/

lemma Json.mem_dedupe_append (items : List Json) (name : String) :
    .string name ∈ Json.dedupe (items ++ [.string name]) := by
  rw [Json.dedupe, dedupeBy, List.foldl_append, List.foldl_cons, List.foldl_nil]
  split
  · rename_i hany
    obtain ⟨kept, hkept, hsame⟩ := List.any_eq_true.1 hany
    cases kept with
    | string other =>
      obtain rfl : other = name := by simpa [Json.same] using hsame
      exact hkept
    | _ => simp [Json.same] at hsame
  · exact List.mem_append_right _ (List.mem_singleton_self _)

namespace Fragment

/-- The schema makes a reference. -/
def Refers (f : Fragment) : Prop :=
  (Draft.reference? f.keywords).isSome = true

/-- The schema announces no dialect but the one of combinators. -/
def KeepsDialect (f : Fragment) : Prop :=
  (Scope.enter plainScope f.keywords).draft = .draft7

instance (f : Fragment) : Decidable f.Refers :=
  inferInstanceAs (Decidable (_ = _))

instance (f : Fragment) : Decidable f.KeepsDialect :=
  inferInstanceAs (Decidable (_ = _))

variable {tag value : String} {f description member union : Fragment} {used : List String}
  {members : List (String × Fragment)}

lemma variants_cons_eq_ok_iff {schemas : List Fragment} :
    variants tag description used ((value, member) :: members) = .ok schemas
      ↔ member.isObject = true ∧ value ∉ used ∧ ∃ others,
        variants tag description (value :: used) members = .ok others
          ∧ schemas = variant tag description value member :: others := by
  rw [variants]
  by_cases hobject : member.isObject = true
  · by_cases hused : value ∈ used
    · simp [hobject, hused, bind, Except.bind, throw, throwThe, MonadExceptOf.throw]
    · simp only [hobject, List.contains_iff_mem, hused, Bool.not_true, if_false, true_and,
        not_false_eq_true]
      refine bind_eq_ok.trans (exists_congr fun others => and_congr_right fun _ => ?_)
      exact ⟨fun h => (Except.ok.inj h).symm, fun h => h ▸ rfl⟩
  · simp [hobject, bind, Except.bind, throw, throwThe, MonadExceptOf.throw]

/-- **Variants** make the members of a union if they are schemas of objects whose values of the tag
differ. -/
lemma variants_eq_ok_iff {schemas : List Fragment} :
    variants tag description used members = .ok schemas
      ↔ (∀ member ∈ members, member.2.isObject = true)
        ∧ (members.map Prod.fst).Nodup ∧ used.Disjoint (members.map Prod.fst)
        ∧ schemas = members.map fun member => variant tag description member.1 member.2 := by
  induction members generalizing used schemas with
  | nil =>
    refine ⟨fun h => ⟨by simp, by simp, by simp, (Except.ok.inj h).symm⟩, fun h => ?_⟩
    rw [h.2.2.2]
    rfl
  | cons member rest ih =>
    obtain ⟨value, member⟩ := member
    rw [variants_cons_eq_ok_iff]
    simp only [ih, List.map_cons, List.forall_mem_cons, List.nodup_cons, List.disjoint_cons_left,
      List.disjoint_cons_right]
    constructor
    · rintro ⟨hobject, hused, others, ⟨hobjects, hnodup, ⟨hvalue, hdisjoint⟩, rfl⟩, rfl⟩
      exact ⟨⟨hobject, hobjects⟩, ⟨hvalue, hnodup⟩, ⟨hused, hdisjoint⟩, rfl⟩
    · rintro ⟨⟨hobject, hobjects⟩, ⟨hvalue, hnodup⟩, ⟨hused, hdisjoint⟩, rfl⟩
      exact ⟨hobject, hused, _, ⟨hobjects, hnodup, ⟨hvalue, hdisjoint⟩, rfl⟩, rfl⟩

/-- **Tagged unions** list their members, each with a tag of its own. -/
lemma taggedUnion_ok {given : Option Fragment} (h : taggedUnion tag members given = .ok union) :
    (∀ member ∈ members, member.2.isObject = true) ∧ (members.map Prod.fst).Nodup
      ∧ union.keywords = [("anyOf", .array ((members.map fun member =>
        variant tag (given.getD (ofKind .string)) member.1 member.2).map json))] := by
  obtain ⟨schemas, hschemas, h⟩ := bind_eq_ok.1 h
  obtain rfl := Except.ok.inj h
  obtain ⟨hobjects, hnodup, -, rfl⟩ := variants_eq_ok_iff.1 hschemas
  exact ⟨hobjects, hnodup, rfl⟩

/-! ### Their keywords -/

/-- The schema of the tag in a member. -/
def tagSchema (description : Fragment) (value : String) : Fragment :=
  (merged [description]).withKeyword "const" (.string value)

lemma string?_merged (hsorted : f.keywords.Sorted) (keyword : String) :
    ((merged [f]).get? keyword).bind Json.string? = (f.get? keyword).bind Json.string? := by
  rw [get?, lookup_merged_keywords hsorted, get?]
  cases Entries.lookup keyword f.keywords with
  | none => rfl
  | some argument => cases argument <;> rfl

/-- The value of the tag aside, its schema says of itself what the description does. -/
lemma string?_tagSchema (hsorted : description.keywords.Sorted) {keyword : String}
    (h : "const" ≠ keyword) : ((tagSchema description value).get? keyword).bind Json.string?
      = (description.get? keyword).bind Json.string? := by
  rw [tagSchema, ← string?_merged hsorted]
  exact congrArg (·.bind Json.string?) (Entries.lookup_insert_of_ne h _ _)

lemma get?_variant {keyword : String} (hproperties : "properties" ≠ keyword)
    (hrequired : keyword ≠ "required") :
    (variant tag description value member).get? keyword = member.get? keyword := by
  rw [variant, get?, lookup_withRequired_keywords hrequired]
  exact Entries.lookup_insert_of_ne hproperties _ _

/-- A member declares the tag. -/
lemma variant_declares (tag : String) (description : Fragment) (value : String) (member : Fragment) :
    ∃ schemas,
    (variant tag description value member).get? "properties" = some (.object schemas)
      ∧ Entries.lookup tag schemas = some (tagSchema description value).json := by
  obtain ⟨inner, hinner⟩ : ∃ inner,
      (member.withChild ["properties", tag] (tagSchema description value)).get? "properties"
        = some (.object (Entries.insert tag (tagSchema description value).json inner)) :=
    ⟨_, Entries.lookup_insert_self _ _ _⟩
  refine ⟨_, ?_, Entries.lookup_insert_self tag _ inner⟩
  rw [variant, get?, lookup_withRequired_keywords (by decide)]
  exact hinner

lemma get?_withRequired_of_mem {required : List Json} {name : Json} (h : name ∈ required) :
    (f.withRequired required).get? "required" = some (.array required) := by
  cases required with
  | nil => exact absurd h List.not_mem_nil
  | cons first rest => exact Entries.lookup_insert_self _ _ _

/-- A member requires the tag. -/
lemma variant_requires (tag : String) (description : Fragment) (value : String) (member : Fragment) :
    ∃ names,
    (variant tag description value member).get? "required" = some (.array names)
      ∧ .string tag ∈ names := by
  have hconcat : Json.concat [(member.get? "required").getD .null, .string tag]
      = ((member.get? "required").getD .null).seq ++ [.string tag] := by
    simp [Json.concat, Json.seq]
  have hmem := Json.mem_dedupe_append ((member.get? "required").getD .null).seq tag
  rw [← hconcat] at hmem
  exact ⟨_, get?_withRequired_of_mem hmem, hmem⟩

/-! ## What a member demands -/

variable {m : Matcher} {scope : Scope} {steps : ℕ} {data : Json}

/-- The scope inside a schema is in the dialect around it, unless the schema announces another one. -/
lemma draft_enter (h : ((f.get? "$schema").bind Json.string?) = ((member.get? "$schema").bind Json.string?))
    (hscope : scope.draft = .draft7) (hmember : member.KeepsDialect) :
    (scope.enter f.keywords).draft = .draft7 := by
  rw [Scope.enter, hscope]
  have heq := congrArg (fun text => (text.bind Draft.announced?).getD Draft.draft7) h
  exact heq.trans hmember

/-- The schema of the tag demands its value, unless the description refers elsewhere. -/
lemma eq_of_passes_tagSchema (hscope : scope.draft = .draft7) (hsorted : description.keywords.Sorted)
    (hdialect : description.KeepsDialect) (hrefers : ¬description.Refers)
    (h : m.Passes (steps + 1) scope (tagSchema description value).json data) :
    data = .string value := by
  have hkeep : ∀ keyword, "const" ≠ keyword →
      (((tagSchema description value).get? keyword).bind Json.string?)
        = (description.get? keyword).bind Json.string? := fun keyword => string?_tagSchema hsorted
  have href : Draft.reference? (tagSchema description value).keywords = none :=
    (hkeep "$ref" (by decide)).trans (Option.not_isSome_iff_eq_none.1 hrefers)
  have hconst : ("const", Json.string value) ∈ (tagSchema description value).keywords :=
    Entries.mem_of_lookup (Entries.lookup_insert_self _ _ _)
  have hallows := (Matcher.passes_iff_allows href).1 h _ hconst
  have hdraft := draft_enter (hkeep "$schema" (by decide)) hscope hdialect
  rw [Matcher.allows_const hdraft] at hallows
  cases data with
  | string other =>
    have heq : value = other := by simpa [Matcher.isConstant, Json.equivalent] using hallows
    rw [heq]
  | _ => simp [Matcher.isConstant, Json.equivalent] at hallows

/-- **Members** of a tagged union that make no reference, nor have a description that does, accept only
objects with their tag. -/
lemma tag_of_passes (hscope : scope.draft = .draft7) (hobject : member.isObject = true)
    (hmember : member.KeepsDialect) (hrefers : ¬member.Refers) (hsorted : description.keywords.Sorted)
    (hdescription : description.KeepsDialect) (hdescribed : ¬description.Refers)
    (h : m.Passes (steps + 2) scope (variant tag description value member).json data) :
    data.member? tag = some (.string value) := by
  have hkeep : ∀ keyword, "properties" ≠ keyword → keyword ≠ "required" →
      (variant tag description value member).get? keyword = member.get? keyword :=
    fun keyword => get?_variant
  have href : Draft.reference? (variant tag description value member).keywords = none := by
    refine (congrArg (·.bind Json.string?) (hkeep "$ref" (by decide) (by decide))).trans ?_
    exact Option.not_isSome_iff_eq_none.1 hrefers
  have hdraft := draft_enter (congrArg (·.bind Json.string?) (hkeep "$schema" (by decide) (by decide)))
    hscope hmember
  have hallows := (Matcher.passes_iff_allows href).1 h
  have htype : (variant tag description value member).get? "type" = some (.string "object") := by
    rw [hkeep "type" (by decide) (by decide)]
    simpa [isObject] using (Bool.and_eq_true_iff.1 hobject).1
  obtain ⟨members, rfl⟩ : ∃ members, data = .object members := by
    have htyped := (Matcher.allows_type hdraft "object").1 (hallows _ (Entries.mem_of_lookup htype))
    cases data <;> simp_all [Matcher.hasType]
  obtain ⟨names, hnames, htag⟩ := variant_requires tag description value member
  have hcontains := Matcher.contains_of_allows_required hdraft
    (hallows _ (Entries.mem_of_lookup hnames)) htag
  rw [Entries.contains_eq_isSome] at hcontains
  obtain ⟨found, hfound⟩ := Option.isSome_iff_exists.1 hcontains
  obtain ⟨schemas, hschemas, htagged⟩ := variant_declares tag description value member
  have hheeds : Matcher.heeds (scope.enter (variant tag description value member).keywords).draft
      (variant tag description value member).keywords "properties" = true := by
    rw [Matcher.heeds, href, hdraft]
    decide
  have hpasses := Matcher.passes_of_properties h hheeds hschemas htagged hfound
  rw [← eq_of_passes_tagSchema hdraft hsorted hdescription hdescribed hpasses]
  exact hfound

end Fragment

/-! ## Unions -/

namespace Validator

/-- A schema in the document of a validator accepts a value, where the root hands it on: nothing is wrong
within the steps that are left. -/
def AcceptsIn (validator : Validator) (schema value : Json) : Prop :=
  validator.matcher.Passes (validator.matcher.budget value - 1) validator.matcher.document.rootScope
    schema value

/-- What a union accepts is what some member accepts. -/
lemma accepts_union_iff {validator : Validator} {schemas : List Json} {value : Json}
    (hroot : validator.matcher.document.root = .object [("anyOf", .array schemas)]) :
    validator.matcher.accepts value = true
      ↔ ∃ schema ∈ schemas, validator.AcceptsIn schema value := by
  obtain ⟨steps, hsteps⟩ : ∃ steps, validator.matcher.budget value = steps + 1 :=
    ⟨_, (Nat.succ_pred_eq_of_pos (Nat.mul_pos (Nat.succ_pos _) (Nat.succ_pos _))).symm⟩
  have hscope : validator.matcher.document.rootScope
      = validator.matcher.document.scope.enter [("anyOf", .array schemas)] := by
    simp only [Document.rootScope, Document.rootLocation, Location.inner, hroot]
  rw [Matcher.accepts, Matcher.violations, Matcher.violationsOf, List.isEmpty_iff, hroot, hsteps]
  refine (Matcher.passes_iff_allows rfl).trans ?_
  rw [List.forall_mem_singleton, Matcher.allows_anyOf, ← hscope]
  simp only [AcceptsIn, hsteps, Nat.add_sub_cancel]
  rfl

/-- **Discrimination.**  A value is an object and has the tag of one variant, whose member accepts the
value as no other member does. -/
def Discriminates (validator : Validator) (tag : String) (description : Fragment)
    (variants : List (String × Fragment)) (value : Json) : Prop :=
  value.isObject = true ∧ ∃ variant ∈ variants,
    (∀ other ∈ variants, value.member? tag = some (.string other.1) ↔ other = variant)
    ∧ ∀ other ∈ variants,
      validator.AcceptsIn (Fragment.variant tag description other.1 other.2).json value ↔ other = variant

end Validator

namespace Fragment

variable {tag : String} {variants : List (String × Fragment)} {given : Option Fragment}
  {description union : Fragment} {options : Option Options} {validator : Validator}

/-- A value of which all members that accept it say the tag is discriminated, if it is accepted. -/
lemma discriminates_of_tagged {value : Json} (hnodup : (variants.map Prod.fst).Nodup)
    (htagged : ∀ variant ∈ variants,
      validator.AcceptsIn (Fragment.variant tag description variant.1 variant.2).json value →
        value.member? tag = some (.string variant.1))
    {variant : String × Fragment} (hvariant : variant ∈ variants)
    (haccepts : validator.AcceptsIn (Fragment.variant tag description variant.1 variant.2).json value) :
    validator.Discriminates tag description variants value := by
  have htag := htagged variant hvariant haccepts
  have honly : ∀ other ∈ variants, value.member? tag = some (.string other.1) → other = variant := by
    intro other hother hvalue
    have heq : other.1 = variant.1 := Json.string.inj (Option.some.inj (hvalue.symm.trans htag))
    exact List.inj_on_of_nodup_map hnodup hother hvariant heq
  refine ⟨?_, variant, hvariant, fun other hother => ⟨honly other hother, ?_⟩,
    fun other hother => ⟨fun hother' => ?_, ?_⟩⟩
  · cases value with
    | object members => rfl
    | _ => simp [Json.member?] at htag
  · rintro rfl
    exact htag
  · exact honly other hother (htagged other hother hother')
  · rintro rfl
    exact haccepts

/-- **Tagged unions discriminate**, under the dialect of combinators, exactly if those of their members
discriminate that make a reference, which voids what stands beside it: all members whose schema refers,
and all of them if the description does.  Each of these has to accept only objects with its tag. -/
theorem taggedUnion_discriminates_iff (hunion : taggedUnion tag variants given = .ok union)
    (hgiven : given.getD (ofKind .string) = description) (hsorted : description.keywords.Sorted)
    (hdescription : description.KeepsDialect) (hvariants : ∀ variant ∈ variants, variant.2.KeepsDialect)
    (hvalidator : Validator.compile union options = .ok validator)
    (hdraft : (union.settings options).matcher.effectiveDraft = .draft7) :
    (∀ value, validator.matcher.accepts value = true →
      validator.Discriminates tag description variants value)
    ↔ ∀ variant ∈ variants, variant.2.Refers ∨ description.Refers → ∀ value,
      validator.AcceptsIn (Fragment.variant tag description variant.1 variant.2).json value →
        value.member? tag = some (.string variant.1) := by
  subst hgiven
  obtain ⟨hobjects, hnodup, hkeywords⟩ := taggedUnion_ok hunion
  obtain ⟨extensions, -, hmatcher, -⟩ := compiled_parts hvalidator
  have hdocument : validator.matcher.document = .ofJson .draft7 union.json := by
    rw [hmatcher, matcherWith, hdraft]
  have hroot : validator.matcher.document.root = .object [("anyOf", .array ((variants.map fun variant =>
      Fragment.variant tag (given.getD (ofKind .string)) variant.1 variant.2).map json))] := by
    rw [hdocument, json, hkeywords]
    rfl
  have hscope : validator.matcher.document.rootScope.draft = .draft7 := by
    rw [hdocument, json, hkeywords]
    rfl
  have hunion : ∀ value, validator.matcher.accepts value = true ↔ ∃ variant ∈ variants,
      validator.AcceptsIn (Fragment.variant tag (given.getD (ofKind .string)) variant.1 variant.2).json
        value := by
    intro value
    rw [Validator.accepts_union_iff hroot]
    simp only [List.mem_map, exists_exists_and_eq_and]
  constructor
  · intro h variant hvariant _ value haccepts
    obtain ⟨-, only, -, htag, honly⟩ := h value ((hunion value).2 ⟨variant, hvariant, haccepts⟩)
    exact (htag variant hvariant).2 ((honly variant hvariant).1 haccepts)
  · intro h value haccepts
    obtain ⟨variant, hvariant, haccepts⟩ := (hunion value).1 haccepts
    refine discriminates_of_tagged hnodup (fun other hother hother' => ?_) hvariant haccepts
    by_cases hrefers : other.2.Refers ∨ (given.getD (ofKind .string)).Refers
    · exact h other hother hrefers value hother'
    · obtain ⟨hmember, hdescribed⟩ := not_or.1 hrefers
      obtain ⟨steps, hsteps⟩ : ∃ steps, validator.matcher.budget value - 1 = steps + 2 := by
        refine ⟨validator.matcher.budget value - 3, ?_⟩
        have hpositions : 1 ≤ validator.matcher.document.root.positions := by
          rw [hroot, Json.positions]
          omega
        have hmul := Nat.mul_le_mul (Nat.add_le_add_right hpositions 1) (Nat.le_add_left 2 value.depth)
        rw [Matcher.budget]
        omega
      rw [Validator.AcceptsIn, hsteps] at hother'
      exact tag_of_passes hscope (hobjects other hother) (hvariants other hother) hmember hsorted
        hdescription hdescribed hother'

/-! ### Tags that are fixed, and one that is not -/

/-- Shapes are told apart by their names. -/
def shapes : List (String × Fragment) :=
  [("circle", closedObject [("radius", ofKind .number)]),
    ("rectangle", closedObject [("height", ofKind .number), ("width", ofKind .number)])]

/-- A circle. -/
def circle : Json :=
  .object [("radius", .int 1), ("shape", .string "circle")]

theorem shapes_discriminate : ∃ union validator, taggedUnion "shape" shapes none = .ok union
    ∧ Validator.compile union none = .ok validator ∧ validator.matcher.accepts circle = true
    ∧ ∀ value, validator.matcher.accepts value = true →
      validator.Discriminates "shape" (ofKind .string) shapes value := by
  obtain ⟨union, hunion⟩ : ∃ union, taggedUnion "shape" shapes none = .ok union := ⟨_, rfl⟩
  have haccepts : (taggedUnion "shape" shapes none).toOption.any
      (fun union => decide (union.Accepts none circle)) = true := by decide +kernel
  have hdraft : (taggedUnion "shape" shapes none).toOption.any
      (fun union => decide ((union.settings none).matcher.effectiveDraft = .draft7)) = true := by
    decide +kernel
  rw [hunion] at haccepts hdraft
  obtain ⟨validator, hvalidator, haccepts⟩ := of_decide_eq_true haccepts
  have hdialect : ∀ variant ∈ shapes, variant.2.KeepsDialect := by decide +kernel
  have hreferless : ∀ variant ∈ shapes, ¬(variant.2.Refers ∨ (ofKind .string).Refers) := by
    decide +kernel
  have hdiscriminates := (taggedUnion_discriminates_iff hunion rfl (List.pairwise_singleton _ _)
    (by decide) hdialect hvalidator (of_decide_eq_true hdraft)).2
  exact ⟨union, validator, hunion, hvalidator, haccepts,
    hdiscriminates fun variant hvariant hrefers => absurd hrefers (hreferless variant hvariant)⟩

/-- Something that has a label. -/
def labelled : List (String × Fragment) :=
  [("a", openObject [("label", ofKind .string)])]

/-- A tag described like the label. -/
def likeLabel : Fragment where
  keywords := [("$ref", .string "#/anyOf/0/properties/label")]

/-- Something whose tag is of no variant. -/
def mislabelled : Json :=
  .object [("kind", .string "b"), ("label", .string "x")]

/-- A reference leaves the value of the tag open. -/
theorem labelled_not_discriminated : ∃ union validator,
    taggedUnion "kind" labelled (some likeLabel) = .ok union
    ∧ Validator.compile union none = .ok validator
    ∧ validator.matcher.accepts mislabelled = true
    ∧ ¬validator.Discriminates "kind" likeLabel labelled mislabelled := by
  obtain ⟨union, hunion⟩ : ∃ union, taggedUnion "kind" labelled (some likeLabel) = .ok union := ⟨_, rfl⟩
  have haccepts : (taggedUnion "kind" labelled (some likeLabel)).toOption.any
      (fun union => decide (union.Accepts none mislabelled)) = true := by decide +kernel
  rw [hunion] at haccepts
  obtain ⟨validator, hvalidator, haccepts⟩ := of_decide_eq_true haccepts
  refine ⟨union, validator, hunion, hvalidator, haccepts, ?_⟩
  rintro ⟨-, variant, hvariant, htag, -⟩
  have hvalue := (htag variant hvariant).2 rfl
  obtain rfl := List.mem_singleton.1 hvariant
  revert hvalue
  decide

end Fragment

end SchemaAlgebra
