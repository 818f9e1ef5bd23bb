import SchemaAlgebra.Proofs.Discrimination
import SchemaAlgebra.Proofs.Views

/-!
# The tag of a tagged union stays

A tagged union remembers its tag, which its views therefore keep required.  Viewing takes the members out
of the union and puts them back, each a schema of objects as before, so that what holds of the union holds
of every view of it.

* `Fragment.FixesTag` — a member declares the tag with its value, and requires it.
* `Fragment.RemembersTag` — a union remembers its tag, and each of its members fixes it.
* `Fragment.RemembersTag.exists_view` — such a union has a view, which is such a union again.
* **`Fragment.views_remember_tag`** — a tagged union can be viewed any number of times, and the views
  remember its tag.
-/

namespace SchemaAlgebra

lemma exists_of_forall₂_right {α β : Type} {R : α → β → Prop} {as : List α} {bs : List β}
    (h : List.Forall₂ R as bs) {b : β} (hb : b ∈ bs) : ∃ a, R a b := by
  induction h with
  | nil => exact absurd hb List.not_mem_nil
  | cons hfirst _ ih =>
    rcases List.mem_cons.1 hb with rfl | hb
    · exact ⟨_, hfirst⟩
    · exact ih hb

namespace Fragment

variable {f description : Fragment} {tag value : String} {keep values : List String} {schema : Json}

/-! ## Members that fix the tag -/

/-- A member of a union is a schema of objects that declares the tag, with the keywords of its
description that are not `null` and the value of the member, and requires it. -/
structure FixesTag (tag : String) (description : Fragment) (value : String) (schema : Json) : Prop where
  object : schema.member? "type" = some (.string "object")
  declared : ∃ properties, schema.member? "properties" = some (.object properties)
    ∧ Entries.lookup tag properties = some (.object
      (Entries.insert "const" (.string value) (Entries.ofPairs (Entries.trim description.keywords))))
  required : ∃ names, schema.member? "required" = some (.array names) ∧ .string tag ∈ names

lemma FixesTag.exists_keywords (h : FixesTag tag description value schema) :
    ∃ keywords, schema = .object keywords := by
  have hobject := h.object
  cases schema with
  | object keywords => exact ⟨keywords, rfl⟩
  | _ => simp [Json.member?] at hobject

lemma FixesTag.isObject (h : FixesTag tag description value f.json) : f.isObject = true := by
  obtain ⟨properties, hproperties, -⟩ := h.declared
  have htype : f.get? "type" = some (.string "object") := h.object
  have hproperties : f.get? "properties" = some (.object properties) := hproperties
  rw [Fragment.isObject, htype, hproperties]
  rfl

lemma fixesTag_variant (hobject : f.isObject = true) :
    FixesTag tag description value (variant tag description value f).json where
  object := by
    have htype : f.get? "type" = some (.string "object") := by
      simpa [Fragment.isObject] using (Bool.and_eq_true_iff.1 hobject).1
    exact (get?_variant (by decide) (by decide)).trans htype
  declared := variant_declares tag description value f
  required := variant_requires tag description value f

/-- Requiring less leaves a tag that is kept. -/
lemma FixesTag.withRequired (h : FixesTag tag description value f.json) (hkeep : tag ∈ keep) :
    FixesTag tag description value (f.withRequired (f.requiredSeq.filter (isNameIn keep))).json where
  object := (lookup_withRequired_keywords (by decide) _).trans h.object
  declared := by
    obtain ⟨properties, hproperties, htag⟩ := h.declared
    exact ⟨properties, (lookup_withRequired_keywords (by decide) _).trans hproperties, htag⟩
  required := by
    obtain ⟨names, hnames, htag⟩ := h.required
    have hnames : f.get? "required" = some (.array names) := hnames
    have hseq : f.requiredSeq = names := by
      rw [requiredSeq, hnames]
      rfl
    have hmem : .string tag ∈ f.requiredSeq.filter (isNameIn keep) :=
      List.mem_filter.2 ⟨hseq ▸ htag, by simpa [isNameIn] using hkeep⟩
    exact ⟨_, get?_withRequired_of_mem hmem, hmem⟩

/-! ## Unions that remember the tag -/

/-- A union remembers its tag, and lists a member for each value of the tag, in order. -/
structure RemembersTag (tag : String) (description : Fragment) (values : List String) (f : Fragment) :
    Prop where
  remembered : f.unionTag? = some ⟨tag, description.json⟩
  noObject : f.isObject = false
  listed : ∃ schemas, f.get? "anyOf" = some (.array schemas)
    ∧ List.Forall₂ (FixesTag tag description) values schemas

lemma remembersTag_taggedUnion {variants : List (String × Fragment)} {given : Option Fragment}
    {union : Fragment} (h : taggedUnion tag variants given = .ok union) :
    RemembersTag tag (given.getD (ofKind .string)) (variants.map Prod.fst) union := by
  obtain ⟨schemas, hschemas, h⟩ := bind_eq_ok.1 h
  obtain rfl := Except.ok.inj h
  obtain ⟨hobjects, -, -, rfl⟩ := variants_eq_ok_iff.1 hschemas
  refine ⟨congrArg (Option.bind · _) (Table.lookup_insert_self _ _ _), rfl, _, rfl, ?_⟩
  rw [List.map_map, List.forall₂_map_left_iff, List.forall₂_map_right_iff, List.forall₂_same]
  exact fun variant hvariant => fixesTag_variant (hobjects variant hvariant)

/-- **One view** of a union that remembers its tag succeeds, and is one again. -/
lemma RemembersTag.exists_view (h : RemembersTag tag description values f) (keep : List String) :
    ∃ view, f.partialView keep = .ok view ∧ RemembersTag tag description values view := by
  obtain ⟨schemas, hschemas, hfixes⟩ := h.listed
  have hkept : tag ∈ f.kept keep := by simp [kept, h.remembered]
  have hunion : f.isTaggedUnion = true := by simp [isTaggedUnion, hschemas, h.remembered]
  have hobjects : ∀ schema ∈ schemas, ∃ keywords, schema = .object keywords := by
    intro schema hschema
    obtain ⟨value, hvalue⟩ := exists_of_forall₂_right hfixes hschema
    exact hvalue.exists_keywords
  obtain rfl := json_members hschemas hobjects
  rw [List.forall₂_map_right_iff] at hfixes
  have hviews : (f.members "anyOf").mapM (Fragment.partialView · (f.kept keep)) = .ok
      ((f.members "anyOf").map fun member =>
        member.withRequired (member.requiredSeq.filter (isNameIn (member.kept (f.kept keep))))) := by
    refine mapM_eq_pure_map fun member hmember => partialView_eq_ok_iff.2 (Or.inl ⟨?_, rfl⟩)
    obtain ⟨value, hvalue⟩ := exists_of_forall₂_right hfixes hmember
    exact hvalue.isObject
  have hview := partialView_eq_ok_iff.2 (Or.inr ⟨h.noObject, hunion, _, hviews, rfl⟩)
  obtain ⟨hroot, hobject, -⟩ := partialView_keeps hview
  refine ⟨_, hview, (congrArg (Option.bind · _) hroot).trans h.remembered, hobject.trans h.noObject,
    _, Entries.lookup_insert_self _ _ _, ?_⟩
  rw [List.map_map, List.forall₂_map_right_iff]
  exact hfixes.imp fun value member hvalue => hvalue.withRequired (List.mem_append_left _ hkept)

/-- **The tag stays.**  A tagged union can be viewed again and again, whatever is kept: each view remembers
the tag and its description, and has a member for each variant, in order, that fixes the tag. -/
theorem views_remember_tag {variants : List (String × Fragment)} {given : Option Fragment}
    {union : Fragment} (h : taggedUnion tag variants given = .ok union) (keeps : List (List String)) :
    ∃ view, keeps.foldlM partialView union = .ok view
      ∧ RemembersTag tag (given.getD (ofKind .string)) (variants.map Prod.fst) view := by
  have hremembers := remembersTag_taggedUnion h
  clear h
  induction keeps generalizing union with
  | nil => exact ⟨union, rfl, hremembers⟩
  | cons keep keeps ih =>
    obtain ⟨view, hview, hremembers⟩ := hremembers.exists_view keep
    rw [List.foldlM_cons, hview]
    exact ih hremembers

/-- Shapes of which no measure has to be given still tell what shape they are. -/
theorem views_of_shapes_remember_tag : ∃ union view, taggedUnion "shape" shapes none = .ok union
    ∧ [["radius", "width"], ["radius"], []].foldlM partialView union = .ok view
    ∧ RemembersTag "shape" (ofKind .string) ["circle", "rectangle"] view := by
  obtain ⟨union, hunion⟩ : ∃ union, taggedUnion "shape" shapes none = .ok union := ⟨_, rfl⟩
  obtain ⟨view, hview, hremembers⟩ := views_remember_tag hunion [["radius", "width"], ["radius"], []]
  exact ⟨union, view, hunion, hview, hremembers⟩

end Fragment

end SchemaAlgebra
