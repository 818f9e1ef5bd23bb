import SchemaAlgebra.Combinator.Array
import SchemaAlgebra.Combinator.Instance
import SchemaAlgebra.Proofs.Discrimination
import SchemaAlgebra.Proofs.Grounding
import SchemaAlgebra.Proofs.Repetitions

/-!
# Histories of fragments

Fragments are made by operations from plain documents and from fragments that were made before
(`Operation`).  A history lists what was made, each time by which operation (`Obtained`).

* `Fragment.Inherited` — a property that the ways to build a fragment hand on; the combinators, which
  are composed of these, hand it on too (`Operation.inherits`).
* `Operation.Careful` — an operation that does not leave a record behind: embedding at a path spares the
  records that stay, and children under one name are settled.
* **`Obtained.grounded_iff`** — every record in a history leads to an object just if every operation is
  careful.
-/

namespace SchemaAlgebra

namespace Json

lemma wellFormed_seq {value : Json} (h : value.WellFormed) : ∀ item ∈ value.seq, item.WellFormed := by
  cases value with
  | null => exact fun _ hitem => absurd hitem List.not_mem_nil
  | array items => exact allWellFormed_iff.1 h
  | _ => exact fun _ hitem => List.mem_singleton.1 hitem ▸ h

lemma wellFormed_concat {values : List Json} (h : ∀ value ∈ values, value.WellFormed) :
    ∀ item ∈ concat values, item.WellFormed := fun item hitem => by
  obtain ⟨value, hvalue, hitem⟩ := List.mem_flatMap.1 hitem
  exact wellFormed_seq (h value hvalue) item hitem

lemma wellFormed_dedupe {items : List Json} (h : ∀ item ∈ items, item.WellFormed) :
    ∀ item ∈ dedupe items, item.WellFormed :=
  fun item hitem => h item (mem_of_mem_dedupe hitem)

end Json

lemma Fragment.wellFormed_stringArray (strings : List String) : (stringArray strings).WellFormed := by
  refine Json.allWellFormed_iff.2 fun item hitem => ?_
  obtain ⟨text, -, rfl⟩ := List.mem_map.1 hitem
  trivial

/-- The schemas in what stands for a type. -/
def TypeArg.fragments : TypeArg → List Fragment
  | .schema fragment => [fragment]
  | .name _ | .names _ => []

/-! ## Properties that building hands on -/

namespace Fragment

/-- A property of fragments that the ways to build them hand on; of embedding at a path and of children
under names only some, which include embedding under a keyword and children of distinct names. -/
structure Inherited (P : Fragment → Prop) (embeds : Fragment → List String → Prop)
    (lists : List (String × Fragment) → Prop) : Prop where
  wellFormed : ∀ f, P f → f.json.WellFormed
  plain : ∀ keywords, (Json.object keywords).WellFormed → P { keywords := keywords }
  withKeyword : ∀ f keyword value, P f → value.WellFormed → P (f.withKeyword keyword value)
  withoutKeyword : ∀ f keyword, P f → P (f.withoutKeyword keyword)
  modifyRoot : ∀ f change, P f → P (f.modifyRoot change)
  withChild : ∀ f path child, P f → P child → embeds f path → P (f.withChild path child)
  withChildren : ∀ f keyword children, P f → (∀ child ∈ children, P child.2) → lists children →
    P (f.withChildren keyword children)
  withMembers : ∀ f keyword members, P f → (∀ member ∈ members, P member) →
    P (f.withMembers keyword members)
  pushMember : ∀ f keyword member, P f → P member → P (f.pushMember keyword member)
  merged : ∀ parts, (∀ part ∈ parts, P part) → P (merged parts)
  at? : ∀ f path child, P f → f.at? path = some child → P child
  single : ∀ f keyword, embeds f [keyword]
  distinct : ∀ children, (∀ child ∈ children, P child.2) → (children.map Prod.fst).Nodup →
    lists children

namespace Inherited

variable {P : Fragment → Prop} {embeds : Fragment → List String → Prop}
  {lists : List (String × Fragment) → Prop} (h : Inherited P embeds lists)
  {f made : Fragment} {listed : List (String × Fragment)} {parts : List Fragment}

include h

/-! ### Primitive schemas -/

lemma empty : P empty :=
  h.plain [] ⟨List.Pairwise.nil, trivial⟩

lemma ofType (type : TypeArg) (htype : ∀ fragment ∈ type.fragments, P fragment) :
    P (ofType type) := by
  cases type with
  | name type => exact h.withKeyword _ _ _ h.empty trivial
  | names types => exact h.withKeyword _ _ _ h.empty (wellFormed_stringArray types)
  | schema fragment => exact htype fragment (List.mem_singleton_self _)

lemma ofKind (kind : Kind) : P (ofKind kind) :=
  h.ofType _ fun _ hfragment => absurd hfragment List.not_mem_nil

/-- What an envelope says before its definitions. -/
lemma envelope (idBase title : String) : P (Fragment.empty
    |>.withKeyword "$schema" (.string dialect)
    |>.withKeyword "type" (.string "object")
    |>.withKeyword "$id" (.string (idBase ++ title ++ ".schema.json"))
    |>.withKeyword "title" (.string title)) :=
  h.withKeyword _ _ _ (h.withKeyword _ _ _ (h.withKeyword _ _ _
    (h.withKeyword _ _ _ h.empty trivial) trivial) trivial) trivial

lemma baseSchema (idBase title : String) (hlisted : ∀ child ∈ listed, P child.2) (hlists : lists listed) :
    P (baseSchema idBase title listed) :=
  h.withChildren _ _ _ (h.envelope idBase title) hlisted hlists

/-! ### Objects -/

lemma withRequired (hf : P f) {required : List Json} (hrequired : ∀ item ∈ required, item.WellFormed) :
    P (f.withRequired required) := by
  unfold Fragment.withRequired
  cases required with
  | nil => exact h.withoutKeyword _ _ hf
  | cons first rest => exact h.withKeyword _ _ _ hf (Json.allWellFormed_iff.2 hrequired)

lemma requiredOf (hf : P f) : ((f.get? "required").getD .null).WellFormed := by
  cases hrequired : f.get? "required" with
  | none => trivial
  | some required =>
    exact Json.wellFormed_of_mem_members (h.wellFormed f hf).2 (Entries.mem_of_lookup hrequired)

lemma objectOf (hlisted : ∀ child ∈ listed, P child.2) (hlists : lists listed) :
    P (objectOf listed) :=
  h.withChildren _ _ _ (h.ofType _ fun _ hfragment => absurd hfragment List.not_mem_nil) hlisted hlists

lemma openObject (hlisted : ∀ child ∈ listed, P child.2) (hlists : lists listed) :
    P (openObject listed) := by
  refine h.withRequired (h.objectOf hlisted hlists) (Json.wellFormed_dedupe fun item hitem => ?_)
  obtain ⟨child, -, rfl⟩ := List.mem_map.1 hitem
  trivial

lemma closedObject (hlisted : ∀ child ∈ listed, P child.2) (hlists : lists listed) :
    P (closedObject listed) :=
  h.withKeyword _ _ _ (h.openObject hlisted hlists) trivial

/-- The schema of all objects. -/
lemma anyObject : P (Fragment.openObject []) :=
  have hnone : ∀ child ∈ ([] : List (String × Fragment)), P child.2 :=
    fun _ hchild => absurd hchild List.not_mem_nil
  h.openObject hnone (h.distinct [] hnone List.nodup_nil)

lemma mapObject (values : Option Fragment) (hvalues : ∀ fragment ∈ values, P fragment) :
    P (mapObject values) := by
  cases values with
  | none => exact h.withKeyword _ _ _ h.anyObject trivial
  | some values => exact h.withChild _ _ _ h.anyObject (hvalues values rfl) (h.single _ _)

lemma of_mem_children (hf : P f) {keyword : String} : ∀ child ∈ f.children keyword, P child.2 :=
  fun _ hchild => h.at? _ _ _ hf (mem_children hchild).1

lemma extending (hf : P f) (hparts : ∀ part ∈ parts, P part) : P (f.extending parts) := by
  obtain ⟨hnodup, hsources⟩ := gatherProperties_spec (parts ++ [f])
  have hgathered : ∀ child ∈ gatherProperties (parts ++ [f]), P child.2 := fun child hchild => by
    obtain ⟨source, hsource, hmem⟩ := hsources child hchild
    refine h.of_mem_children ?_ child hmem
    rcases List.mem_append.1 hsource with hsource | hsource
    · exact hparts source hsource
    · exact List.mem_singleton.1 hsource ▸ hf
  have hmerged : P (Fragment.merged [f]) := h.merged _ fun part hpart => List.mem_singleton.1 hpart ▸ hf
  refine h.withRequired (h.withChildren _ _ _ hmerged hgathered (h.distinct _ hgathered hnodup))
    (Json.wellFormed_dedupe (Json.wellFormed_concat fun value hvalue => ?_))
  obtain ⟨source, hsource, rfl⟩ := List.mem_map.1 hvalue
  rcases List.mem_cons.1 hsource with rfl | hsource
  · exact h.requiredOf hf
  · exact h.requiredOf (hparts source (List.mem_reverse.1 hsource))

lemma removeProperty (hf : P f) {names : List String} (hmade : f.removeProperty names = .ok made) :
    P made := by
  unfold Fragment.removeProperty at hmade
  split at hmade
  · simp at hmade
  · simp at hmade
  · rename_i required hrequired
    obtain rfl := Except.ok.inj hmade
    have hkept : ∀ child ∈ (f.children "properties").filter fun child => !names.contains child.1,
        P child.2 := fun child hchild => h.of_mem_children hf child (List.mem_filter.1 hchild).1
    have hnodup := (nodup_children (h.wellFormed f hf) "properties").sublist
      ((List.filter_sublist (p := fun child => !names.contains child.1)).map Prod.fst)
    have hmerged : P (Fragment.merged [f]) :=
      h.merged _ fun part hpart => List.mem_singleton.1 hpart ▸ hf
    refine h.withKeyword _ _ _ (h.withChildren _ _ _ hmerged hkept (h.distinct _ hkept hnodup))
      (Json.allWellFormed_iff.2 fun item hitem => ?_)
    have hwf := h.requiredOf hf
    rw [hrequired] at hwf
    exact Json.wellFormed_seq hwf item (List.mem_filter.1 hitem).1

/-! ### Arrays -/

lemma listOf (item : TypeArg) (hitem : ∀ fragment ∈ item.fragments, P fragment) : P (listOf item) :=
  h.withChild _ _ _ (h.ofType _ fun _ hfragment => absurd hfragment List.not_mem_nil)
    (h.ofType item hitem) (h.single _ _)

lemma openTupleOf (items : List TypeArg) (hitems : ∀ item ∈ items, ∀ fragment ∈ item.fragments, P fragment) :
    P (openTupleOf items) := by
  have harray : P (Fragment.ofType (.name "array")) :=
    h.ofType _ fun _ hfragment => absurd hfragment List.not_mem_nil
  refine h.withKeyword _ _ _ ?_ trivial
  split
  · exact harray
  · refine h.withMembers _ _ _ harray fun member hmember => ?_
    obtain ⟨item, hitem, rfl⟩ := List.mem_map.1 hmember
    exact h.ofType item (hitems item hitem)

lemma closedTupleOf (items : List TypeArg)
    (hitems : ∀ item ∈ items, ∀ fragment ∈ item.fragments, P fragment) : P (closedTupleOf items) :=
  h.withKeyword _ _ _ (h.withKeyword _ _ _ (h.openTupleOf items hitems) trivial) trivial

/-! ### Unions -/

lemma anyOf (hparts : ∀ part ∈ parts, P part) : P (anyOf parts) :=
  h.withMembers _ _ _ h.empty hparts

lemma nullable (hf : P f) : P f.nullable := by
  rcases f.nullable_cases with ⟨-, heq, -⟩ | ⟨-, heq | heq⟩
  · rw [heq]
    exact h.pushMember _ _ _ (h.merged _ fun part hpart => List.mem_singleton.1 hpart ▸ hf) (h.ofKind _)
  · rwa [heq]
  · rw [heq]
    exact h.anyOf (List.forall_mem_cons.2 ⟨hf, List.forall_mem_singleton.2 (h.ofKind _)⟩)

lemma variant (tag value : String) {description : Fragment} (hdescription : P description) (hf : P f)
    (hembeds : embeds f ["properties", tag]) : P (variant tag description value f) := by
  have hmerged : P (Fragment.merged [description]) :=
    h.merged _ fun part hpart => List.mem_singleton.1 hpart ▸ hdescription
  have htag := h.withKeyword _ "const" (.string value) hmerged trivial
  refine h.withRequired (h.withChild _ _ _ hf htag hembeds)
    (Json.wellFormed_dedupe (Json.wellFormed_concat ?_))
  exact List.forall_mem_cons.2 ⟨h.requiredOf hf, List.forall_mem_singleton.2 trivial⟩

lemma taggedUnion {tag : String} {description : Option Fragment}
    (hdescription : ∀ fragment ∈ description, P fragment) (hlisted : ∀ member ∈ listed, P member.2)
    (hembeds : ∀ member ∈ listed, embeds member.2 ["properties", tag])
    (hmade : taggedUnion tag listed description = .ok made) : P made := by
  obtain ⟨schemas, hschemas, hmade⟩ := bind_eq_ok.1 hmade
  obtain rfl := Except.ok.inj hmade
  obtain ⟨-, -, -, rfl⟩ := variants_eq_ok_iff.1 hschemas
  have hdescribed : P (description.getD (Fragment.ofKind .string)) := by
    cases description with
    | none => exact h.ofKind _
    | some description => exact hdescription description rfl
  refine h.modifyRoot _ _ (h.anyOf fun part hpart => ?_)
  obtain ⟨member, hmember, rfl⟩ := List.mem_map.1 hpart
  exact h.variant tag member.1 hdescribed (hlisted member hmember) (hembeds member hmember)

lemma partialView (hf : P f) {keep : List String} (hmade : f.partialView keep = .ok made) : P made := by
  induction f using induction_on_members generalizing keep made with
  | step f ih =>
    obtain ⟨-, rfl⟩ | ⟨-, -, views, hviews, rfl⟩ := partialView_eq_ok_iff.1 hmade
    · exact h.withRequired hf fun item hitem =>
        Json.wellFormed_seq (h.requiredOf hf) item (List.mem_filter.1 hitem).1
    · refine h.withMembers _ _ _ hf fun view hview => ?_
      obtain ⟨member, hmember, hview⟩ := (mapM_eq_ok hviews).2 view hview
      obtain ⟨index, -, hat, -⟩ := mem_members hmember
      exact ih member hmember (h.at? _ _ _ hf hat) hview

/-! ### Classes and transforms -/

lemma instanceOf {cls : ClassRef} (hmade : instanceOf cls = .ok made) : P made := by
  unfold Fragment.instanceOf at hmade
  have hnamed := h.withKeyword _ "instanceOf" (.string cls.name) h.anyObject trivial
  split at hmade
  · simp at hmade
  · cases cls with
    | named name => exact Except.ok.inj hmade ▸ hnamed
    | carried cls => exact Except.ok.inj hmade ▸ h.modifyRoot _ _ hnamed

lemma withTransforms (hf : P f) {references : List TransformRef}
    (hmade : f.withTransforms references = .ok made) : P made := by
  unfold Fragment.withTransforms at hmade
  have hnamed := h.withKeyword f "transform" _ hf
    (wellFormed_stringArray (references.map TransformRef.name))
  split at hmade
  · simp at hmade
  · dsimp only at hmade
    split at hmade
    · exact Except.ok.inj hmade ▸ hnamed
    · exact Except.ok.inj hmade ▸ h.modifyRoot _ _ hnamed

end Inherited

/-! ### Orderly and grounded fragments -/

lemma inherited_orderly : Inherited Orderly (fun _ _ => True) (fun _ => True) where
  wellFormed := fun _ h => h.wellFormed
  plain := fun _ h => ⟨h, Tidy.empty⟩
  withKeyword := fun _ keyword _ h hvalue => h.withKeyword hvalue keyword
  withoutKeyword := fun _ keyword h => h.withoutKeyword keyword
  modifyRoot := fun _ change h => h.modifyRoot change
  withChild := fun _ path _ h hchild _ => h.withChild hchild path
  withChildren := fun _ keyword _ h hchildren _ => h.withChildren hchildren keyword
  withMembers := fun _ keyword _ h hmembers => h.withMembers hmembers keyword
  pushMember := fun _ keyword _ h hmember => h.pushMember hmember keyword
  merged := fun _ hparts => Orderly.merged hparts
  at? := fun _ _ _ h hat => h.at? hat
  single := fun _ _ => trivial
  distinct := fun _ _ _ => trivial

/-- A fragment as building should leave it: orderly, and without records that dangle. -/
structure Upright (f : Fragment) : Prop extends f.Orderly where
  stands : ∀ path, ¬ f.Dangles path

lemma upright_iff {f : Fragment} (h : f.Orderly) : f.Upright ↔ f.Grounded := by
  rw [grounded_iff_forall_not_dangles h.tidy]
  exact ⟨fun hupright => hupright.stands, fun hstands => ⟨h, hstands⟩⟩

lemma inherited_upright : Inherited Upright Spares Settled where
  wellFormed := fun _ h => h.wellFormed
  plain := fun _ h => ⟨⟨h, Tidy.empty⟩, fun _ hdangles =>
    absurd hdangles.1 (by simp [recordAt?, Table.lookup, Table.empty])⟩
  withKeyword := fun _ keyword value h hvalue => ⟨h.toOrderly.withKeyword hvalue keyword,
    fun path hdangles => h.stands path ((dangles_withKeyword keyword value).1 hdangles).2⟩
  withoutKeyword := fun _ keyword h => ⟨h.toOrderly.withoutKeyword keyword,
    fun path hdangles => h.stands path ((dangles_withoutKeyword keyword).1 hdangles).2⟩
  modifyRoot := fun _ change h => ⟨h.toOrderly.modifyRoot change,
    fun path hdangles => h.stands path ((dangles_modifyRoot change).1 hdangles)⟩
  withChild := fun _ path _ h hchild hspares => ⟨h.toOrderly.withChild hchild.toOrderly path,
    (dangles_withChild h.stands hchild.tidy hchild.stands path).2 hspares⟩
  withChildren := fun _ keyword _ h hchildren hsettled =>
    ⟨h.toOrderly.withChildren (fun child hchild => (hchildren child hchild).toOrderly) keyword,
      (dangles_withChildren h.stands (fun child hchild => (hchildren child hchild).tidy) keyword).2
        hsettled⟩
  withMembers := fun _ keyword _ h hmembers =>
    ⟨h.toOrderly.withMembers (fun member hmember => (hmembers member hmember).toOrderly) keyword,
      (dangles_withMembers h.stands (fun member hmember => (hmembers member hmember).tidy) keyword).2
        fun member hmember => (hmembers member hmember).stands⟩
  pushMember := fun _ keyword _ h hmember => ⟨h.toOrderly.pushMember hmember.toOrderly keyword,
    not_dangles_pushMember h.stands ⟨hmember.tidy, hmember.stands⟩ keyword⟩
  merged := fun _ hparts => ⟨Orderly.merged fun part hpart => (hparts part hpart).toOrderly,
    not_dangles_merged fun part hpart => ⟨(hparts part hpart).wellFormed.1, (hparts part hpart).stands⟩⟩
  at? := fun _ _ _ h hat => ⟨h.toOrderly.at? hat, not_dangles_at? h.stands hat⟩
  single := fun f keyword => f.spares_singleton keyword
  distinct := fun _ hchildren hnodup => settled_of_nodup hnodup fun child hchild =>
    ⟨(hchildren child hchild).tidy, (hchildren child hchild).stands⟩

/-! ### Where care is needed -/

section
variable {f : Fragment} {children : List (String × Fragment)}

lemma spares_of_withChild (hf : f.Upright) {child : Fragment} (hchild : child.Upright) {path : List String}
    (h : (f.withChild path child).Upright) : f.Spares path :=
  (dangles_withChild hf.stands hchild.tidy hchild.stands path).1 h.stands

lemma settled_of_withChildren (hf : f.Upright) (hchildren : ∀ child ∈ children, child.2.Upright)
    {keyword : String} (h : ∀ path, ¬ (f.withChildren keyword children).Dangles path) : Settled children :=
  (dangles_withChildren hf.stands (fun child hchild => (hchildren child hchild).tidy) keyword).1 h

lemma settled_of_objectOf (hchildren : ∀ child ∈ children, child.2.Upright)
    (h : ∀ path, ¬ (objectOf children).Dangles path) : Settled children :=
  settled_of_withChildren
    (inherited_upright.ofType _ fun _ hfragment => absurd hfragment List.not_mem_nil) hchildren h

/-- A schema of objects has no records but those of its properties. -/
lemma head?_of_dangles_objectOf (hchildren : ∀ child ∈ children, child.2.Upright) {path : List String}
    (h : (objectOf children).Dangles path) : path.head? = some "properties" := by
  by_contra hhead
  have hrecord : (objectOf children).recordAt? (Pointer.join "" path) = none :=
    (lookup_adoptAll_of_head (fun child hchild => (hchildren child hchild).tidy.wellPlaced) hhead).trans
      rfl
  rw [Dangles, hrecord] at h
  exact absurd h.1 (by simp)

lemma dangles_openObject (hchildren : ∀ child ∈ children, child.2.Upright) {path : List String}
    (h : (objectOf children).Dangles path) : (openObject children).Dangles path := by
  refine (dangles_withRequired _).2 ⟨?_, h⟩
  rw [head?_of_dangles_objectOf hchildren h]
  decide

lemma settled_of_openObject (hchildren : ∀ child ∈ children, child.2.Upright)
    (h : ∀ path, ¬ (openObject children).Dangles path) : Settled children :=
  settled_of_objectOf hchildren fun path hdangles => h path (dangles_openObject hchildren hdangles)

lemma settled_of_closedObject (hchildren : ∀ child ∈ children, child.2.Upright)
    (h : ∀ path, ¬ (closedObject children).Dangles path) : Settled children := by
  refine settled_of_objectOf hchildren fun path hdangles => h path ?_
  refine (dangles_withKeyword _ _).2 ⟨?_, dangles_openObject hchildren hdangles⟩
  rw [head?_of_dangles_objectOf hchildren hdangles]
  decide

/-- What a variant does not spare stands among the properties, and stays there. -/
lemma spares_of_variant {tag : String} (value : String) {description : Fragment} (hf : f.Upright)
    (hdescription : description.Upright)
    (h : ∀ path, ¬ (variant tag description value f).Dangles path) : f.Spares ["properties", tag] := by
  have hmerged : (merged [description]).Upright :=
    inherited_upright.merged _ fun part hpart => List.mem_singleton.1 hpart ▸ hdescription
  have htag := inherited_upright.withKeyword _ "const" (.string value) hmerged trivial
  refine (dangles_withChild hf.stands htag.tidy htag.stands _).1 fun other hdangles => h other ?_
  refine (dangles_withRequired _).2 ⟨fun hhead => ?_, hdangles⟩
  obtain ⟨rest, rfl⟩ := List.head?_eq_some_iff.1 hhead
  have hapart : ¬ ["properties", tag] <+: "required" :: rest := fun hbelow =>
    absurd (List.cons_prefix_cons.1 hbelow).1 (by decide)
  refine ((dangles_withChild_apart (by simp) htag.tidy hf.stands hapart).1 hdangles).2
    (Or.inr fun above habove hbelow => ?_)
  cases above with
  | nil => exact Json.objectAt_root _
  | cons first above =>
    exact absurd ((List.cons_prefix_cons.1 habove).1.symm.trans (List.cons_prefix_cons.1 hbelow).1)
      (by decide)

lemma spares_of_taggedUnion {tag : String} {members : List (String × Fragment)}
    {description : Option Fragment} {made : Fragment}
    (hdescription : ∀ fragment ∈ description, fragment.Upright)
    (hmembers : ∀ member ∈ members, member.2.Upright)
    (hmade : taggedUnion tag members description = .ok made) (h : ∀ path, ¬ made.Dangles path) :
    ∀ member ∈ members, member.2.Spares ["properties", tag] := by
  obtain ⟨schemas, hschemas, hmade⟩ := bind_eq_ok.1 hmade
  obtain rfl := Except.ok.inj hmade
  obtain ⟨-, -, -, rfl⟩ := variants_eq_ok_iff.1 hschemas
  have hdescribed : (description.getD (ofKind .string)).Upright := by
    cases description with
    | none => exact inherited_upright.ofKind _
    | some description => exact hdescription description rfl
  have horderly : ∀ part ∈ members.map fun member =>
      variant tag (description.getD (ofKind .string)) member.1 member.2, part.Orderly := by
    intro part hpart
    obtain ⟨member, hmember, rfl⟩ := List.mem_map.1 hpart
    exact inherited_orderly.variant tag member.1 hdescribed.toOrderly (hmembers member hmember).toOrderly
      trivial
  intro member hmember
  refine spares_of_variant member.1 (hmembers member hmember) hdescribed ?_
  refine (dangles_withMembers inherited_upright.empty.stands (fun part hpart => (horderly part hpart).tidy)
    "anyOf").1 (fun path hdangles => h path ((dangles_modifyRoot _).2 hdangles)) _ ?_
  exact List.mem_map_of_mem hmember

end

end Fragment

/-! ## Operations -/

/-- An operation that makes a fragment, with what it is applied to. -/
inductive Operation where
  | document (value : Json)
  | withKeyword (f : Fragment) (keyword : String) (value : Json)
  | withoutKeyword (f : Fragment) (keyword : String)
  | withChild (f : Fragment) (path : List String) (child : Fragment)
  | withChildren (f : Fragment) (keyword : String) (children : List (String × Fragment))
  | withMembers (f : Fragment) (keyword : String) (members : List Fragment)
  | pushMember (f : Fragment) (keyword : String) (member : Fragment)
  | merged (parts : List Fragment)
  | takeOut (f : Fragment) (path : List String)
  | modifyRoot (f : Fragment) (change : Metadata → Metadata)
  | objectOf (properties : List (String × Fragment))
  | openObject (properties : List (String × Fragment))
  | closedObject (properties : List (String × Fragment))
  | mapObject (values : Option Fragment)
  | listOf (item : TypeArg)
  | openTupleOf (items : List TypeArg)
  | closedTupleOf (items : List TypeArg)
  | anyOf (members : List Fragment)
  | nullable (f : Fragment)
  | taggedUnion (tag : String) (members : List (String × Fragment)) (description : Option Fragment)
  | partialView (f : Fragment) (keep : List String)
  | extending (child : Fragment) (bases : List Fragment)
  | removeProperty (f : Fragment) (names : List String)
  | instanceOf (cls : ClassRef)
  | withTransforms (f : Fragment) (references : List TransformRef)
  | baseSchema (idBase title : String) (definitions : List (String × Fragment))

namespace Operation

open Fragment (Inherited Orderly Upright Spares Settled)

/-- What an operation makes; nothing is made where there is nothing to take out. -/
def apply : Operation → Option Fragment
  | document value => (Fragment.ofJson value).toOption
  | withKeyword f keyword value => some (f.withKeyword keyword value)
  | withoutKeyword f keyword => some (f.withoutKeyword keyword)
  | withChild f path child => some (f.withChild path child)
  | withChildren f keyword children => some (f.withChildren keyword children)
  | withMembers f keyword members => some (f.withMembers keyword members)
  | pushMember f keyword member => some (f.pushMember keyword member)
  | merged parts => some (Fragment.merged parts)
  | takeOut f path => f.at? path
  | modifyRoot f change => some (f.modifyRoot change)
  | objectOf properties => some (Fragment.objectOf properties)
  | openObject properties => some (Fragment.openObject properties)
  | closedObject properties => some (Fragment.closedObject properties)
  | mapObject values => some (Fragment.mapObject values)
  | listOf item => some (Fragment.listOf item)
  | openTupleOf items => some (Fragment.openTupleOf items)
  | closedTupleOf items => some (Fragment.closedTupleOf items)
  | anyOf members => some (Fragment.anyOf members)
  | nullable f => some f.nullable
  | taggedUnion tag members description => (Fragment.taggedUnion tag members description).toOption
  | partialView f keep => (f.partialView keep).toOption
  | extending child bases => some (child.extending bases)
  | removeProperty f names => (f.removeProperty names).toOption
  | instanceOf cls => (Fragment.instanceOf cls).toOption
  | withTransforms f references => (f.withTransforms references).toOption
  | baseSchema idBase title definitions => some (Fragment.baseSchema idBase title definitions)

/-- The fragments that an operation is applied to. -/
def operands : Operation → List Fragment
  | document _ | instanceOf _ => []
  | withKeyword f _ _ | withoutKeyword f _ | takeOut f _ | modifyRoot f _ | nullable f
  | partialView f _ | removeProperty f _ | withTransforms f _ => [f]
  | withChild f _ child | pushMember f _ child => [f, child]
  | withChildren f _ children => f :: children.map Prod.snd
  | withMembers f _ members => f :: members
  | merged parts | anyOf parts => parts
  | objectOf children | openObject children | closedObject children | baseSchema _ _ children =>
    children.map Prod.snd
  | mapObject values => values.toList
  | listOf item => item.fragments
  | openTupleOf items | closedTupleOf items => items.flatMap TypeArg.fragments
  | taggedUnion _ members description => description.toList ++ members.map Prod.snd
  | extending child bases => child :: bases

/-- The values that an operation is given. -/
def values : Operation → List Json
  | document value | withKeyword _ _ value => [value]
  | _ => []

/-- An operation that embeds at a path, and children under names, only as is allowed. -/
def Allowed (embeds : Fragment → List String → Prop) (lists : List (String × Fragment) → Prop) :
    Operation → Prop
  | withChild f path _ => embeds f path
  | withChildren _ _ children | objectOf children | openObject children | closedObject children
  | baseSchema _ _ children => lists children
  | taggedUnion tag members _ => ∀ member ∈ members, embeds member.2 ["properties", tag]
  | _ => True

/-- An operation that leaves no record behind. -/
def Careful (operation : Operation) : Prop :=
  operation.Allowed Spares Settled

variable {P : Fragment → Prop} {embeds : Fragment → List String → Prop}
  {lists : List (String × Fragment) → Prop} {operation : Operation} {made : Fragment}

lemma toOption_eq_some {ε α : Type} {x : Except ε α} {a : α} (h : x.toOption = some a) : x = .ok a := by
  cases x with
  | error error => simp [Except.toOption] at h
  | ok b => exact congrArg Except.ok (Option.some.inj h)

/-- **Operations** hand on what the ways to build a fragment hand on. -/
lemma inherits (h : Inherited P embeds lists) (hoperands : ∀ operand ∈ operation.operands, P operand)
    (hvalues : ∀ value ∈ operation.values, value.WellFormed)
    (hallowed : operation.Allowed embeds lists) (hmade : operation.apply = some made) : P made := by
  -- children stand among the operands without their names
  have hchildren : ∀ {children : List (String × Fragment)},
      (∀ operand ∈ children.map Prod.snd, P operand) → ∀ child ∈ children, P child.2 :=
    fun hall child hchild => hall child.2 (List.mem_map_of_mem hchild)
  cases operation with
  | document value =>
    cases value with
    | object keywords =>
      exact Option.some.inj hmade ▸ h.plain keywords (hvalues _ (List.mem_singleton_self _))
    | _ => simp [apply, Fragment.ofJson, Except.toOption] at hmade
  | withKeyword f keyword value =>
    exact Option.some.inj hmade ▸ h.withKeyword f keyword value (hoperands _ (List.mem_singleton_self _))
      (hvalues _ (List.mem_singleton_self _))
  | withoutKeyword f keyword =>
    exact Option.some.inj hmade ▸ h.withoutKeyword f keyword (hoperands _ (List.mem_singleton_self _))
  | withChild f path child =>
    obtain ⟨hf, hchild⟩ := List.forall_mem_cons.1 hoperands
    exact Option.some.inj hmade ▸ h.withChild f path child hf (hchild _ (List.mem_singleton_self _))
      hallowed
  | withChildren f keyword children =>
    obtain ⟨hf, hlisted⟩ := List.forall_mem_cons.1 hoperands
    exact Option.some.inj hmade ▸ h.withChildren f keyword children hf (hchildren hlisted) hallowed
  | withMembers f keyword members =>
    obtain ⟨hf, hmembers⟩ := List.forall_mem_cons.1 hoperands
    exact Option.some.inj hmade ▸ h.withMembers f keyword members hf hmembers
  | pushMember f keyword member =>
    obtain ⟨hf, hmember⟩ := List.forall_mem_cons.1 hoperands
    exact Option.some.inj hmade ▸ h.pushMember f keyword member hf (hmember _ (List.mem_singleton_self _))
  | merged parts => exact Option.some.inj hmade ▸ h.merged parts hoperands
  | takeOut f path => exact h.at? f path made (hoperands _ (List.mem_singleton_self _)) hmade
  | modifyRoot f change =>
    exact Option.some.inj hmade ▸ h.modifyRoot f change (hoperands _ (List.mem_singleton_self _))
  | objectOf properties => exact Option.some.inj hmade ▸ h.objectOf (hchildren hoperands) hallowed
  | openObject properties => exact Option.some.inj hmade ▸ h.openObject (hchildren hoperands) hallowed
  | closedObject properties =>
    exact Option.some.inj hmade ▸ h.closedObject (hchildren hoperands) hallowed
  | mapObject values =>
    exact Option.some.inj hmade ▸ h.mapObject values fun fragment hfragment =>
      hoperands fragment (Option.mem_toList.2 hfragment)
  | listOf item => exact Option.some.inj hmade ▸ h.listOf item hoperands
  | openTupleOf items =>
    exact Option.some.inj hmade ▸ h.openTupleOf items fun item hitem fragment hfragment =>
      hoperands fragment (List.mem_flatMap.2 ⟨item, hitem, hfragment⟩)
  | closedTupleOf items =>
    exact Option.some.inj hmade ▸ h.closedTupleOf items fun item hitem fragment hfragment =>
      hoperands fragment (List.mem_flatMap.2 ⟨item, hitem, hfragment⟩)
  | anyOf members => exact Option.some.inj hmade ▸ h.anyOf hoperands
  | nullable f => exact Option.some.inj hmade ▸ h.nullable (hoperands _ (List.mem_singleton_self _))
  | taggedUnion tag members description =>
    obtain ⟨hdescription, hmembers⟩ := List.forall_mem_append.1 hoperands
    exact h.taggedUnion (fun fragment hfragment => hdescription fragment (Option.mem_toList.2 hfragment))
      (hchildren hmembers) hallowed (toOption_eq_some hmade)
  | partialView f keep =>
    exact h.partialView (hoperands _ (List.mem_singleton_self _)) (toOption_eq_some hmade)
  | extending child bases =>
    obtain ⟨hchild, hbases⟩ := List.forall_mem_cons.1 hoperands
    exact Option.some.inj hmade ▸ h.extending hchild hbases
  | removeProperty f names =>
    exact h.removeProperty (hoperands _ (List.mem_singleton_self _)) (toOption_eq_some hmade)
  | instanceOf cls => exact h.instanceOf (toOption_eq_some hmade)
  | withTransforms f references =>
    exact h.withTransforms (hoperands _ (List.mem_singleton_self _)) (toOption_eq_some hmade)
  | baseSchema idBase title definitions =>
    exact Option.some.inj hmade ▸ h.baseSchema idBase title (hchildren hoperands) hallowed

/-- What is made of orderly fragments is orderly. -/
lemma orderly (hoperands : ∀ operand ∈ operation.operands, operand.Orderly)
    (hvalues : ∀ value ∈ operation.values, value.WellFormed) (hmade : operation.apply = some made) :
    made.Orderly := by
  refine inherits Fragment.inherited_orderly hoperands hvalues ?_ hmade
  cases operation with
  | taggedUnion tag members description => exact fun _ _ => trivial
  | _ => trivial

/-- **One operation** on fragments whose records all lead to objects makes one just if it is careful. -/
lemma upright_iff_careful (hoperands : ∀ operand ∈ operation.operands, operand.Upright)
    (hvalues : ∀ value ∈ operation.values, value.WellFormed) (hmade : operation.apply = some made) :
    made.Upright ↔ operation.Careful := by
  refine ⟨fun h => ?_, fun h => inherits Fragment.inherited_upright hoperands hvalues h hmade⟩
  have hchildren : ∀ {children : List (String × Fragment)},
      (∀ operand ∈ children.map Prod.snd, operand.Upright) → ∀ child ∈ children, child.2.Upright :=
    fun hall child hchild => hall child.2 (List.mem_map_of_mem hchild)
  cases operation with
  | withChild f path child =>
    obtain rfl := Option.some.inj hmade
    obtain ⟨hf, hchild⟩ := List.forall_mem_cons.1 hoperands
    exact Fragment.spares_of_withChild hf (hchild _ (List.mem_singleton_self _)) h
  | withChildren f keyword children =>
    obtain rfl := Option.some.inj hmade
    obtain ⟨hf, hlisted⟩ := List.forall_mem_cons.1 hoperands
    exact Fragment.settled_of_withChildren hf (hchildren hlisted) h.stands
  | objectOf properties =>
    obtain rfl := Option.some.inj hmade
    exact Fragment.settled_of_objectOf (hchildren hoperands) h.stands
  | openObject properties =>
    obtain rfl := Option.some.inj hmade
    exact Fragment.settled_of_openObject (hchildren hoperands) h.stands
  | closedObject properties =>
    obtain rfl := Option.some.inj hmade
    exact Fragment.settled_of_closedObject (hchildren hoperands) h.stands
  | baseSchema idBase title definitions =>
    obtain rfl := Option.some.inj hmade
    exact Fragment.settled_of_withChildren (Fragment.inherited_upright.envelope idBase title)
      (hchildren hoperands) h.stands
  | taggedUnion tag members description =>
    obtain ⟨hdescription, hmembers⟩ := List.forall_mem_append.1 hoperands
    exact Fragment.spares_of_taggedUnion
      (fun fragment hfragment => hdescription fragment (Option.mem_toList.2 hfragment))
      (hchildren hmembers) (toOption_eq_some hmade) h.stands
  | _ => trivial

end Operation

/-! ## Histories -/

/-- A history of fragments, the last one first: each is made by an operation from earlier ones, and from
well-formed values. -/
inductive Obtained : List (Operation × Fragment) → Prop
  | nil : Obtained []
  | step {history : List (Operation × Fragment)} {operation : Operation} {made : Fragment} :
    Obtained history → (∀ operand ∈ operation.operands, operand ∈ history.map Prod.snd) →
    (∀ value ∈ operation.values, value.WellFormed) → operation.apply = some made →
    Obtained ((operation, made) :: history)

namespace Obtained

variable {history : List (Operation × Fragment)}

lemma orderly (h : Obtained history) : ∀ entry ∈ history, entry.2.Orderly := by
  induction h with
  | nil => exact fun _ hentry => absurd hentry List.not_mem_nil
  | @step history operation made _ hoperands hvalues hmade ih =>
    refine List.forall_mem_cons.2 ⟨Operation.orderly (fun operand hoperand => ?_) hvalues hmade, ih⟩
    obtain ⟨entry, hentry, rfl⟩ := List.mem_map.1 (hoperands operand hoperand)
    exact ih entry hentry

lemma upright_iff (h : Obtained history) :
    (∀ entry ∈ history, entry.2.Upright) ↔ ∀ entry ∈ history, entry.1.Careful := by
  induction h with
  | nil => exact iff_of_true (fun _ h => absurd h List.not_mem_nil) fun _ h => absurd h List.not_mem_nil
  | @step history operation made _ hoperands hvalues hmade ih =>
    rw [List.forall_mem_cons, List.forall_mem_cons, ← ih]
    refine and_congr_left fun hupright => ?_
    refine Operation.upright_iff_careful (fun operand hoperand => ?_) hvalues hmade
    obtain ⟨entry, hentry, rfl⟩ := List.mem_map.1 (hoperands operand hoperand)
    exact hupright entry hentry

/-- **No record dangles** in a history just if all its operations are careful: then every pointer of a
record leads to an object of the document that it belongs to. -/
theorem grounded_iff (h : Obtained history) :
    (∀ entry ∈ history, entry.2.Grounded) ↔ ∀ entry ∈ history, entry.1.Careful := by
  rw [← h.upright_iff]
  exact forall₂_congr fun entry hentry => (Fragment.upright_iff (h.orderly entry hentry)).symm

/-- Texts. -/
def text : Fragment :=
  { keywords := [("type", .string "string")] }

/-- Texts that are marked as optional. -/
def markedText : Fragment :=
  text.modifyRoot fun m => { m with optionalMark := some true }

/-- Objects with an optional text. -/
def noteObject : Fragment :=
  Fragment.openObject [("note", markedText)]

/-- A marked text is made of a document. -/
def markedHistory : List (Operation × Fragment) :=
  [(.modifyRoot text fun m => { m with optionalMark := some true }, markedText),
    (.document text.json, text)]

/-- Then objects with such a text are made. -/
def noteHistory : List (Operation × Fragment) :=
  (.openObject [("note", markedText)], noteObject) :: markedHistory

lemma obtained_markedHistory : Obtained markedHistory :=
  .step (.step .nil (fun _ h => absurd h List.not_mem_nil) (by decide) rfl)
    (fun _ h => List.mem_singleton.1 h ▸ List.mem_cons_self) (fun _ h => absurd h List.not_mem_nil) rfl

lemma obtained_noteHistory : Obtained noteHistory :=
  .step obtained_markedHistory (fun _ h => List.mem_singleton.1 h ▸ List.mem_cons_self)
    (fun _ h => absurd h List.not_mem_nil) rfl

/-- A property takes its record along. -/
theorem noteHistory_grounded : Obtained noteHistory ∧ ∀ entry ∈ noteHistory, entry.2.Grounded := by
  refine ⟨obtained_noteHistory, obtained_noteHistory.grounded_iff.2 ?_⟩
  have hmarked : ∀ entry ∈ markedHistory, entry.1.Careful :=
    List.forall_mem_cons.2 ⟨trivial, List.forall_mem_singleton.2 trivial⟩
  have hupright := obtained_markedHistory.upright_iff.2 hmarked
  have hsettled : Fragment.Settled [("note", markedText)] :=
    Fragment.inherited_upright.distinct _
      (List.forall_mem_singleton.2 (hupright _ List.mem_cons_self)) (by decide)
  exact List.forall_mem_cons.2 ⟨hsettled, hmarked⟩

/-- Objects whose only property is listed twice, first as an object, then as a text. -/
def relistedHistory : List (Operation × Fragment) :=
  (.objectOf [("a", noteObject), ("a", text)], Fragment.objectOf [("a", noteObject), ("a", text)])
    :: noteHistory

/-- Pairs whose first item is a marked text, with what makes an object of the list of items. -/
def replacedHistory : List (Operation × Fragment) :=
  (.withChild (Fragment.openTupleOf [.schema markedText]) ["items", "x"] text,
      (Fragment.openTupleOf [.schema markedText]).withChild ["items", "x"] text)
    :: (.openTupleOf [.schema markedText], Fragment.openTupleOf [.schema markedText]) :: markedHistory

/-- A record is left behind where a child gives way to another of its name, and where an array on the
way gives way to an object. -/
theorem records_left_behind :
    (Obtained relistedHistory ∧ ¬ (Fragment.objectOf [("a", noteObject), ("a", text)]).Grounded)
      ∧ Obtained replacedHistory
      ∧ ¬ ((Fragment.openTupleOf [.schema markedText]).withChild ["items", "x"] text).Grounded := by
  refine ⟨⟨.step obtained_noteHistory (fun operand h => ?_) (fun _ h => absurd h List.not_mem_nil) rfl,
    by decide +kernel⟩, .step (.step obtained_markedHistory (fun operand h => ?_)
      (fun _ h => absurd h List.not_mem_nil) rfl) (fun operand h => ?_)
      (fun _ h => absurd h List.not_mem_nil) rfl, by decide +kernel⟩
  · rcases List.mem_pair.1 h with rfl | rfl
    · exact List.mem_cons_self
    · simp [noteHistory, markedHistory]
  · exact List.mem_singleton.1 h ▸ List.mem_cons_self
  · rcases List.mem_pair.1 h with rfl | rfl
    · exact List.mem_cons_self
    · simp [markedHistory]

end Obtained

end SchemaAlgebra
