import SchemaAlgebra.Combinator.Array
import SchemaAlgebra.Combinator.Union
import SchemaAlgebra.Proofs.Keywords
import SchemaAlgebra.Proofs.Repetitions

/-!
# What combinators mean

Unions, lists, tuples, objects and maps accept the values that their parts let them accept
(`Combination.accepts_iff_means`).  Each combinator writes a few structural keywords, with its parts
beneath them.

* `Fragment.ComposedOf.set` — setting a structural keyword keeps a schema composed of parts.
* `Combination.composedOf` — so what a combinator makes is composed of its parts.
* `Combination.passes_iff_means` — its keywords demand what it should.
* `Combination.accepts_iff_means` — and it accepts what it should, provided that its parts keep their
  settings and the names in them keep their meaning (`Fragment.Retains`).
* `Combination.isPart` — and can be combined further.
* `Combination.unions_mislead` — the provisos are needed: a union has room for one class of a name, and
  none for the options attached to its members.
-/

namespace SchemaAlgebra

/-- In a sorted list what is said of entries is said of what is looked up. -/
lemma Entries.forall_mem_iff {α : Type} {entries : Entries α} (h : entries.Sorted)
    {P : String × α → Prop} : (∀ entry ∈ entries, P entry)
      ↔ ∀ key value, Entries.lookup key entries = some value → P (key, value) :=
  ⟨fun hall _ _ hlookup => hall _ (mem_of_lookup hlookup),
    fun hall entry hentry => hall entry.1 entry.2 (lookup_of_mem h hentry)⟩

namespace Fragment

variable {f g child : Fragment} {parts members : List Fragment} {children : List (String × Fragment)}
  {keyword : String} {value argument : Json}

/-! ## Writing structural keywords -/

/-- A schema whose arguments have their shapes if the parts are schemas of the dialect. -/
def Shaped (parts : List Fragment) (keyword : String) (argument : Json) : Prop :=
  (∀ part ∈ parts, Draft.draft7.isSchema part.json = true) → ∀ shape,
    Draft.draft7.shape? keyword = some shape → Draft.draft7.fits shape argument = true

lemma Shaped.of_shape (shape : Shape) (hshape : Draft.draft7.shape? keyword = some shape)
    (hfits : (∀ part ∈ parts, Draft.draft7.isSchema part.json = true) →
      Draft.draft7.fits shape argument = true) : Shaped parts keyword argument := by
  intro hparts other hother
  obtain rfl := Option.some.inj (hshape.symm.trans hother)
  exact hfits hparts

/-- Embedding a fragment under a keyword leaves what is not beneath it. -/
lemma lookup_withChild_of_head {path : List String} (hplaced : child.WellPlaced)
    (h : path.head? ≠ some keyword) : (f.withChild [keyword] child).recordAt? (Pointer.join "" path)
      = f.recordAt? (Pointer.join "" path) := by
  refine (lookup_adopt_of_not fun entry hentry heq => h ?_).trans
    ((lookup_clear f.records keyword path).trans (if_neg h))
  refine hasPrefix_keywordPointer.1 ?_
  rw [← heq]
  exact Pointer.hasPrefix_append (hplaced entry hentry) _

lemma wellPlaced_withChild (h : f.WellPlaced) (hplaced : child.WellPlaced) :
    (f.withChild [keyword] child).WellPlaced := by
  intro entry hentry
  rcases Entries.mem_enter hentry with hentry | hentry
  · obtain ⟨original, horiginal, rfl⟩ := List.mem_map.1 hentry
    exact (Pointer.rooted_join _).append (hplaced original (List.mem_filter.1 horiginal).1)
  · exact h entry (List.mem_filter.1 hentry).1

lemma keepsUnder_withChild {other : String} (h : other ≠ keyword) (hplaced : child.WellPlaced) :
    KeepsUnder f (f.withChild [other] child) keyword := by
  intro argument hargument
  refine ⟨(Entries.lookup_insert_of_ne h _ _).symm.trans hargument, fun path hpath => ?_⟩
  exact lookup_withChild_of_head hplaced
    (by rw [hpath]; exact fun heq => h (Option.some.inj heq).symm)

lemma embedsUnder_withChild (hkeyword : keyword ∉ Json.mapKeywords) :
    (f.withChild [keyword] child).EmbedsUnder [child] keyword := by
  intro argument tokens value hargument hmem
  obtain rfl := Option.some.inj ((Entries.lookup_insert_self _ _ _).symm.trans hargument)
  simp only [json, Json.insideOf, hkeyword, if_false, List.nil_append] at hmem
  split at hmem
  · obtain ⟨rfl, rfl⟩ := Prod.mk.inj (List.mem_singleton.1 hmem)
    refine ⟨child, List.mem_singleton_self _, rfl, fun rest => ?_⟩
    have hnone : transformsIn (clearUnder f.records (keywordPointer keyword))
        (keywordPointer keyword ++ Pointer.join "" rest) = none := by
      rw [keywordPointer, ← Pointer.join_root_append, ← keywordPointer, transformsIn, lookup_clear]
      simp
    rw [transformsOn, Pointer.join_root_append]
    exact transformsIn_adopt hnone
  · simp at hmem

lemma EmbedsUnder.mono {more : List Fragment} (h : f.EmbedsUnder parts keyword) (hsub : parts ⊆ more) :
    f.EmbedsUnder more keyword := fun argument tokens value hargument hmem =>
  (h argument tokens value hargument hmem).imp fun _ hpart => ⟨hsub hpart.1, hpart.2⟩

namespace ComposedOf

/-- Setting a structural keyword, with parts beneath it, keeps a schema composed of parts. -/
lemma set (h : f.ComposedOf parts) (hkeywords : g.keywords = Entries.insert keyword argument f.keywords)
    (hplaced : g.WellPlaced) (hroot : g.root? = f.root?) (hkeyword : keyword ∈ structuralKeywords)
    (hwf : argument.WellFormed) (hshaped : Shaped parts keyword argument)
    (hembeds : g.EmbedsUnder parts keyword) (hkeeps : ∀ other, keyword ≠ other → KeepsUnder f g other) :
    g.ComposedOf parts where
  wellFormed := by
    rw [json, hkeywords]
    exact Json.wellFormed_insert h.wellFormed hwf
  placed := hplaced
  bare := hroot.trans h.bare
  structural := by
    intro entry hentry
    rcases Entries.mem_insert (hkeywords ▸ hentry) with rfl | hentry
    · exact hkeyword
    · exact h.structural entry hentry
  fits := by
    intro hparts entry hentry
    rcases Entries.mem_insert (hkeywords ▸ hentry) with rfl | hentry
    · exact hshaped hparts
    · exact h.fits hparts entry hentry
  embedsUnder := by
    intro other
    by_cases hother : keyword = other
    · exact hother ▸ hembeds
    · exact (h.embedsUnder other).of_keeps (hkeeps other hother)

lemma empty : Fragment.empty.ComposedOf parts where
  wellFormed := ⟨List.Pairwise.nil, trivial⟩
  placed := fun _ hentry => absurd hentry List.not_mem_nil
  bare := rfl
  structural := fun _ hentry => absurd hentry List.not_mem_nil
  fits := fun _ _ hentry => absurd hentry List.not_mem_nil
  embedsUnder := fun _ _ _ _ hargument => by simp [Fragment.empty] at hargument

lemma withKeyword (h : f.ComposedOf parts) (hkeyword : keyword ∈ structuralKeywords)
    (hwf : value.WellFormed) (hshaped : Shaped parts keyword value)
    (hinside : Json.insideOf keyword value = []) : (f.withKeyword keyword value).ComposedOf parts := by
  refine h.set rfl (fun entry hentry => h.placed entry (List.mem_filter.1 hentry).1)
    (lookup_withKeyword (head?_nil_ne keyword) value) hkeyword hwf hshaped ?_
    fun other hother => keepsUnder_withKeyword hother value
  intro argument tokens inner hargument hmem
  obtain rfl := Option.some.inj ((Entries.lookup_insert_self _ _ _).symm.trans hargument)
  rw [hinside] at hmem
  exact absurd hmem List.not_mem_nil

lemma withoutKeyword (h : f.ComposedOf parts) : (f.withoutKeyword keyword).ComposedOf parts where
  wellFormed := ⟨h.wellFormed.1.filter _, Json.membersWellFormed_iff.2 fun _ hmember =>
    Json.membersWellFormed_iff.1 h.wellFormed.2 _ (List.mem_filter.1 hmember).1⟩
  placed := fun entry hentry => h.placed entry (List.mem_filter.1 hentry).1
  bare := (lookup_withoutKeyword (head?_nil_ne keyword)).trans h.bare
  structural := fun entry hentry => h.structural entry (List.mem_filter.1 hentry).1
  fits := fun hparts entry hentry => h.fits hparts entry (List.mem_filter.1 hentry).1
  embedsUnder := fun other => (h.embedsUnder other).of_keeps (keepsUnder_withoutKeyword keyword)

lemma withMembers (h : f.ComposedOf parts) (hkeyword : keyword ∈ structuralKeywords)
    (hlist : keyword ∈ Json.listKeywords) (hsub : members ⊆ parts)
    (hparts : ∀ part ∈ parts, part.json.WellFormed ∧ part.WellPlaced)
    (hshaped : Shaped parts keyword (.array (members.map json))) :
    (f.withMembers keyword members).ComposedOf parts := by
  have hplaced : ∀ member ∈ members, member.WellPlaced := fun member hmember =>
    (hparts member (hsub hmember)).2
  refine h.set (by rw [withMembers_eq]) (wellPlaced_withMembers h.placed keyword hplaced)
    (root?_withMembers f keyword hplaced) hkeyword ?_ hshaped
    ((embedsUnder_withMembers hlist hplaced).mono hsub)
    fun other hother => keepsUnder_withMembers hother hplaced
  refine Json.allWellFormed_iff.2 fun item hitem => ?_
  obtain ⟨member, hmember, rfl⟩ := List.mem_map.1 hitem
  exact (hparts member (hsub hmember)).1

lemma withChildren (h : f.ComposedOf parts) (hkeyword : keyword ∈ structuralKeywords)
    (hsingle : keyword ∉ Json.singleKeywords) (hnodup : (children.map Prod.fst).Nodup)
    (hsub : children.map Prod.snd ⊆ parts)
    (hparts : ∀ part ∈ parts, part.json.WellFormed ∧ part.WellPlaced)
    (hshaped : Shaped parts keyword
      (Json.ofMembers (children.map fun child => (child.1, child.2.json)))) :
    (f.withChildren keyword children).ComposedOf parts := by
  have hchild : ∀ child ∈ children, child.2.json.WellFormed ∧ child.2.WellPlaced := fun child hchild =>
    hparts _ (hsub (List.mem_map_of_mem hchild))
  have hplaced : ∀ child ∈ children, child.2.WellPlaced := fun child hmem => (hchild child hmem).2
  refine h.set rfl (rooted_adoptAll hplaced fun entry hentry =>
      h.placed entry (List.mem_filter.1 hentry).1)
    (lookup_adoptAll_of_head hplaced (head?_nil_ne keyword)) hkeyword ?_ hshaped
    ((embedsUnder_withChildren hsingle hplaced hnodup).mono hsub)
    fun other hother => keepsUnder_withChildren hother hplaced
  refine ⟨Entries.sorted_ofPairs _, Json.membersWellFormed_iff.2 fun member hmember => ?_⟩
  rcases Entries.mem_enter hmember with hmember | hmember
  · obtain ⟨child, hmem, rfl⟩ := List.mem_map.1 hmember
    exact (hchild child hmem).1
  · simp at hmember

lemma withChild (h : f.ComposedOf parts) (hkeyword : keyword ∈ structuralKeywords)
    (hmap : keyword ∉ Json.mapKeywords) (hchild : child ∈ parts)
    (hparts : ∀ part ∈ parts, part.json.WellFormed ∧ part.WellPlaced)
    (hshaped : Shaped parts keyword child.json) : (f.withChild [keyword] child).ComposedOf parts := by
  obtain ⟨hwf, hplaced⟩ := hparts child hchild
  exact h.set rfl (wellPlaced_withChild h.placed hplaced)
    (lookup_withChild_of_head hplaced (head?_nil_ne keyword)) hkeyword hwf hshaped
    ((embedsUnder_withChild hmap).mono (List.cons_subset.2 ⟨hchild, List.nil_subset _⟩))
    fun other hother => keepsUnder_withChild hother hplaced

end ComposedOf

lemma ComposedOf.withCount (h : f.ComposedOf parts) (hkeyword : keyword ∈ ["minItems", "maxItems"])
    (count : ℕ) : (f.withKeyword keyword (.int count)).ComposedOf parts := by
  have hshape : Draft.draft7.shape? keyword = some (.count true) := by revert keyword; decide
  refine h.withKeyword (by revert keyword; decide) trivial (.of_shape _ hshape fun _ => ?_)
    (Json.insideOf_of_not_mem (by revert keyword; decide) _)
  exact decide_eq_true (Int.natCast_nonneg count)

/-- Writing that there is nothing more. -/
lemma ComposedOf.withNothing (h : f.ComposedOf parts)
    (hkeyword : keyword ∈ ["additionalItems", "additionalProperties"]) :
    (f.withKeyword keyword (.bool false)).ComposedOf parts := by
  have hshape : Draft.draft7.shape? keyword = some .schema := by revert keyword; decide
  refine h.withKeyword (by revert keyword; decide) trivial (.of_shape _ hshape fun _ => rfl) ?_
  simp only [List.mem_cons, List.not_mem_nil, or_false] at hkeyword
  rcases hkeyword with rfl | rfl <;> rfl

/-! ## Required names -/

lemma areNames_of_nodup {names : List String} (h : names.Nodup) :
    Shape.areNames false (names.map .string) = true := by
  have hdistinct : Json.distinct (names.map .string) = true := by
    induction names with
    | nil => rfl
    | cons name rest ih =>
      obtain ⟨hname, hrest⟩ := List.nodup_cons.1 h
      rw [List.map_cons, Json.distinct, ih hrest, Bool.and_true, List.all_eq_true]
      intro other hother
      obtain ⟨inner, hinner, rfl⟩ := List.mem_map.1 hother
      have hne : name ≠ inner := fun heq => hname (heq ▸ hinner)
      simpa [Json.equivalent] using hne
  simp [Shape.areNames, hdistinct, Json.string?]

lemma nodup_requiredNames {properties : List (String × Fragment)}
    (h : (properties.map Prod.fst).Nodup) : (requiredNames properties).Nodup :=
  h.sublist ((List.filter_sublist).map _)

/-- The keyword for required names, which is left out if there are none. -/
def requiredKeyword (names : List String) : Entries Json :=
  if names = [] then [] else [("required", .array (names.map .string))]

lemma withRequired_names (f : Fragment) (names : List String) :
    f.withRequired (names.map .string) = if names = [] then f.withoutKeyword "required"
      else f.withKeyword "required" (.array (names.map .string)) := by
  cases names <;> rfl

lemma ComposedOf.withRequired {names : List String} (h : f.ComposedOf parts) (hnames : names.Nodup) :
    (f.withRequired (names.map .string)).ComposedOf parts := by
  rw [withRequired_names]
  split
  · exact h.withoutKeyword
  · refine h.withKeyword (by decide) ?_ (.of_shape (.names false) rfl fun _ => ?_) rfl
    · exact Json.allWellFormed_iff.2 (List.forall_mem_map.2 fun _ _ => trivial)
    · exact areNames_of_nodup hnames

end Fragment

/-! ## Combinators -/

/-- What combinators make of their parts. -/
inductive Combination where
  | anyOf (members : List Fragment)
  | listOf (item : TypeArg)
  | openTuple (items : List TypeArg)
  | closedTuple (items : List TypeArg)
  | openObject (properties : List (String × Fragment))
  | closedObject (properties : List (String × Fragment))
  | mapObject (values : Fragment)

namespace Combination

open Fragment (ofType requiredNames requiredKeyword)

/-- The schema. -/
def fragment : Combination → Fragment
  | anyOf members => .anyOf members
  | listOf item => .listOf item
  | openTuple items => .openTupleOf items
  | closedTuple items => .closedTupleOf items
  | openObject properties => .openObject properties
  | closedObject properties => .closedObject properties
  | mapObject values => .mapObject (some values)

/-- The schemas it is made of. -/
def parts : Combination → List Fragment
  | anyOf members => members
  | listOf item => [ofType item]
  | openTuple items | closedTuple items => items.map ofType
  | openObject properties | closedObject properties => properties.map Prod.snd
  | mapObject values => [values]

/-- A union has members, and the properties of an object have distinct names. -/
def Proper : Combination → Prop
  | anyOf members => members ≠ []
  | openObject properties | closedObject properties => (properties.map Prod.fst).Nodup
  | _ => True

/-- The first items are accepted by the schemas for their places. -/
def ItemsMatch (options : Option Options) (schemas : List TypeArg) (items : List Json) : Prop :=
  ∀ (index : ℕ) (schema : TypeArg) (item : Json), schemas[index]? = some schema →
    items[index]? = some item → (ofType schema).Accepts options item

/-- Required members are there, and declared ones are accepted by the schemas for their names. -/
def MembersMatch (options : Option Options) (properties : List (String × Fragment))
    (members : Entries Json) : Prop :=
  (∀ property ∈ properties, property.2.optionalMark? ≠ some true →
      Entries.contains property.1 members = true)
    ∧ ∀ property ∈ properties, ∀ value, Entries.lookup property.1 members = some value →
      property.2.Accepts options value

/-- **The meaning of a combinator**: which values it is to accept, given those that its parts accept. -/
def Means (options : Option Options) : Combination → Json → Prop
  | anyOf members, value => ∃ member ∈ members, member.Accepts options value
  | listOf item, value => ∃ items, value = .array items
      ∧ ∀ inner ∈ items, (ofType item).Accepts options inner
  | openTuple schemas, value => ∃ items, value = .array items ∧ schemas.length ≤ items.length
      ∧ ItemsMatch options schemas items
  | closedTuple schemas, value => ∃ items, value = .array items ∧ items.length = schemas.length
      ∧ ItemsMatch options schemas items
  | openObject properties, value => ∃ members, value = .object members
      ∧ MembersMatch options properties members
  | closedObject properties, value => ∃ members, value = .object members
      ∧ MembersMatch options properties members
      ∧ ∀ member ∈ members, ∃ property ∈ properties, property.1 = member.1
  | mapObject values, value => ∃ members, value = .object members
      ∧ ∀ member ∈ members, values.Accepts options member.2

/-! ### What they write -/

/-- The declared properties as an object. -/
def declared (properties : List (String × Fragment)) : Entries Json :=
  Entries.ofPairs (properties.map fun property => (property.1, property.2.json))

lemma openObject_eq {properties : List (String × Fragment)} (h : (properties.map Prod.fst).Nodup) :
    Fragment.openObject properties
      = (Fragment.objectOf properties).withRequired ((requiredNames properties).map .string) := by
  rw [Fragment.openObject_eq, eraseDups_eq_self (Fragment.nodup_requiredNames h)]

lemma keywords_openObject (properties : List (String × Fragment))
    (h : (properties.map Prod.fst).Nodup) : (openObject properties).fragment.keywords
      = ("properties", .object (declared properties)) :: requiredKeyword (requiredNames properties)
        ++ [("type", .string "object")] := by
  rw [fragment, openObject_eq h, Fragment.withRequired_names, requiredKeyword]
  split <;> rfl

/-- The keyword for the schemas of a tuple, which is left out if there are none. -/
def itemsKeyword (schemas : List TypeArg) : Entries Json :=
  if schemas = [] then [] else [("items", .array ((schemas.map ofType).map Fragment.json))]

lemma keywords_anyOf (members : List Fragment) : (anyOf members).fragment.keywords
    = [("anyOf", .array (members.map Fragment.json))] := by
  rw [fragment, Fragment.anyOf, Fragment.withMembers_eq]
  rfl

lemma keywords_listOf (item : TypeArg) : (listOf item).fragment.keywords
    = [("items", (ofType item).json), ("type", .string "array")] :=
  rfl

lemma keywords_openTuple (schemas : List TypeArg) : (openTuple schemas).fragment.keywords
    = itemsKeyword schemas ++ [("minItems", .int schemas.length), ("type", .string "array")] := by
  cases schemas <;> rfl

lemma keywords_closedTuple (schemas : List TypeArg) : (closedTuple schemas).fragment.keywords
    = ("additionalItems", .bool false) :: itemsKeyword schemas ++ [("maxItems", .int schemas.length),
      ("minItems", .int schemas.length), ("type", .string "array")] := by
  cases schemas <;> rfl

lemma keywords_closedObject (properties : List (String × Fragment))
    (h : (properties.map Prod.fst).Nodup) : (closedObject properties).fragment.keywords
      = ("additionalProperties", .bool false) :: (openObject properties).fragment.keywords := by
  have hkeywords : (closedObject properties).fragment.keywords = Entries.insert "additionalProperties"
      (.bool false) (openObject properties).fragment.keywords := rfl
  rw [hkeywords, keywords_openObject properties h]
  rfl

lemma keywords_mapObject (values : Fragment) : (mapObject values).fragment.keywords
    = [("additionalProperties", values.json), ("properties", .object []),
      ("type", .string "object")] :=
  rfl

/-! ### Combinations of parts -/

section

variable {parts : List Fragment} {options : Option Options}

lemma composedOf_type {name : String} (h : Shape.isTypeName (.string name) = true) :
    (ofType (.name name)).ComposedOf parts :=
  Fragment.ComposedOf.empty.withKeyword (by decide) trivial (.of_shape .types rfl fun _ => h) rfl

lemma composedOf_anyOf {members : List Fragment} (hne : members ≠ []) (hsub : members ⊆ parts)
    (hparts : ∀ part ∈ parts, part.json.WellFormed ∧ part.WellPlaced) :
    (anyOf members).fragment.ComposedOf parts := by
  refine Fragment.ComposedOf.empty.withMembers (by decide) (by decide) hsub hparts
    (.of_shape .schemas rfl fun hschemas => ?_)
  rw [Draft.fits, Bool.and_eq_true, Draft.fitItems_iff, List.forall_mem_map]
  exact ⟨by simpa using hne, fun member hmember => hschemas member (hsub hmember)⟩

lemma composedOf_listOf {item : TypeArg} (hitem : ofType item ∈ parts)
    (hparts : ∀ part ∈ parts, part.json.WellFormed ∧ part.WellPlaced) :
    (listOf item).fragment.ComposedOf parts :=
  (composedOf_type (by decide)).withChild (by decide) (by decide) hitem hparts
    (.of_shape .schemaOrSchemas rfl fun hschemas => hschemas _ hitem)

lemma composedOf_openTuple {schemas : List TypeArg} (hsub : schemas.map ofType ⊆ parts)
    (hparts : ∀ part ∈ parts, part.json.WellFormed ∧ part.WellPlaced) :
    (openTuple schemas).fragment.ComposedOf parts := by
  have hbase : (if schemas.isEmpty then ofType (.name "array") else
      (ofType (.name "array")).withMembers "items" (schemas.map ofType)).ComposedOf parts := by
    split
    · exact composedOf_type (by decide)
    · rename_i hne
      refine (composedOf_type (by decide)).withMembers (by decide) (by decide) hsub hparts
        (.of_shape .schemaOrSchemas rfl fun hschemas => ?_)
      rw [Draft.fits, Bool.and_eq_true, Draft.fitItems_iff, List.forall_mem_map]
      exact ⟨by simpa using hne, fun schema hschema => hschemas schema (hsub hschema)⟩
  exact hbase.withCount (by decide) schemas.length

lemma composedOf_openObject {properties : List (String × Fragment)}
    (hnodup : (properties.map Prod.fst).Nodup) (hsub : properties.map Prod.snd ⊆ parts)
    (hparts : ∀ part ∈ parts, part.json.WellFormed ∧ part.WellPlaced) :
    (openObject properties).fragment.ComposedOf parts := by
  rw [fragment, openObject_eq hnodup]
  refine ((composedOf_type (by decide)).withChildren (by decide) (by decide) hnodup hsub hparts
    (.of_shape (.map .schema) rfl fun hschemas => ?_)).withRequired (Fragment.nodup_requiredNames hnodup)
  rw [Json.ofMembers, Draft.fits, Draft.fitMembers_iff]
  intro member hmember
  rcases Entries.mem_enter hmember with hmember | hmember
  · obtain ⟨property, hproperty, rfl⟩ := List.mem_map.1 hmember
    exact hschemas _ (hsub (List.mem_map_of_mem hproperty))
  · simp at hmember

/-- What a combinator makes is composed of its parts. -/
theorem composedOf {c : Combination} (hproper : c.Proper)
    (hparts : ∀ part ∈ c.parts, part.IsPart options) : c.fragment.ComposedOf c.parts := by
  have hparts : ∀ part ∈ c.parts, part.json.WellFormed ∧ part.WellPlaced :=
    fun part hpart => ⟨(hparts part hpart).wellFormed, (hparts part hpart).placed⟩
  cases c with
  | anyOf members => exact composedOf_anyOf hproper (List.Subset.refl _) hparts
  | listOf item => exact composedOf_listOf (List.mem_singleton_self _) hparts
  | openTuple schemas => exact composedOf_openTuple (List.Subset.refl _) hparts
  | closedTuple schemas =>
    exact ((composedOf_openTuple (List.Subset.refl _) hparts).withNothing (by decide)).withCount
      (by decide) schemas.length
  | openObject properties => exact composedOf_openObject hproper (List.Subset.refl _) hparts
  | closedObject properties =>
    exact (composedOf_openObject hproper (List.Subset.refl _) hparts).withNothing (by decide)
  | mapObject values =>
    have hnone : (openObject []).fragment.ComposedOf [values] :=
      composedOf_openObject List.nodup_nil (List.nil_subset _) hparts
    exact hnone.withChild (by decide) (by decide) (List.mem_singleton_self _) hparts
      (.of_shape .schema rfl fun hschemas => hschemas _ (List.mem_singleton_self _))

end

/-! ### Lookups -/

section

variable {properties : List (String × Fragment)} {schemas : List TypeArg} {name : String}

lemma nodup_jsons (h : (properties.map Prod.fst).Nodup) :
    ((properties.map fun property => (property.1, property.2.json)).map Prod.fst).Nodup := by
  rwa [List.map_map]

lemma lookup_declared (h : (properties.map Prod.fst).Nodup) {schema : Json} :
    Entries.lookup name (declared properties) = some schema
      ↔ ∃ property ∈ properties, property.1 = name ∧ property.2.json = schema := by
  rw [declared, Entries.ofPairs, Entries.lookup_enter (nodup_jsons h), Entries.lookup_nil,
    Option.or_none, Entries.lookup_eq_some_iff (nodup_jsons h)]
  simp only [List.mem_map, Prod.mk.injEq]

lemma contains_declared (h : (properties.map Prod.fst).Nodup) :
    Entries.contains name (declared properties) = true
      ↔ ∃ property ∈ properties, property.1 = name := by
  rw [Entries.contains_eq_isSome, Option.isSome_iff_exists]
  simp only [lookup_declared h]
  exact ⟨fun ⟨_, property, hmem, hname, _⟩ => ⟨property, hmem, hname⟩,
    fun ⟨property, hmem, hname⟩ => ⟨_, property, hmem, hname, rfl⟩⟩

lemma lookup_itemsKeyword (rest : Entries Json) (hne : schemas ≠ []) :
    Entries.lookup "items" (itemsKeyword schemas ++ rest)
      = some (.array ((schemas.map ofType).map Fragment.json)) := by
  rw [itemsKeyword, if_neg hne]
  exact Entries.lookup_cons_self _ _ _

lemma exists_stands_listed {keywords : Entries Json} {keyword : String} {members : List Fragment}
    {part : Fragment} (hkeyword : keyword ∈ Json.listKeywords)
    (hlookup : Entries.lookup keyword keywords = some (.array (members.map Fragment.json)))
    (hpart : part ∈ members) : ∃ tokens, (tokens, part.json) ∈ Json.inside keywords := by
  obtain ⟨index, hindex⟩ := List.mem_iff_getElem?.1 hpart
  have hjson : (members.map Fragment.json)[index]? = some part.json := by
    rw [List.getElem?_map, hindex]
    rfl
  exact ⟨_, Json.mem_inside_listed hkeyword hlookup hjson⟩

lemma exists_stands_declared {keywords : Entries Json} {part : Fragment}
    (h : (properties.map Prod.fst).Nodup)
    (hlookup : Entries.lookup "properties" keywords = some (.object (declared properties)))
    (hpart : part ∈ properties.map Prod.snd) :
    ∃ tokens, (tokens, part.json) ∈ Json.inside keywords := by
  obtain ⟨property, hproperty, rfl⟩ := List.mem_map.1 hpart
  have hjson := Entries.mem_of_lookup ((lookup_declared h).2 ⟨property, hproperty, rfl, rfl⟩)
  exact ⟨_, Json.mem_inside_named (by decide) hlookup hjson⟩

/-- Every part of a combination stands in what the combinator makes of it. -/
lemma exists_stands {c : Combination} (hproper : c.Proper) {part : Fragment} (hpart : part ∈ c.parts) :
    ∃ tokens, (tokens, part.json) ∈ Json.inside c.fragment.keywords := by
  cases c with
  | anyOf members =>
    rw [keywords_anyOf]
    exact exists_stands_listed (by decide) (Entries.lookup_cons_self _ _ _) hpart
  | listOf item =>
    obtain rfl := List.mem_singleton.1 hpart
    exact ⟨_, Json.mem_inside_single (by decide) (Entries.lookup_cons_self _ _ _) rfl⟩
  | openTuple schemas =>
    have hne : schemas ≠ [] := fun hnil => by simp [parts, hnil] at hpart
    rw [keywords_openTuple]
    exact exists_stands_listed (by decide) (lookup_itemsKeyword _ hne) hpart
  | closedTuple schemas =>
    have hne : schemas ≠ [] := fun hnil => by simp [parts, hnil] at hpart
    have hlookup := lookup_itemsKeyword [("maxItems", .int schemas.length),
      ("minItems", .int schemas.length), ("type", .string "array")] hne
    rw [keywords_closedTuple, List.cons_append]
    exact exists_stands_listed (by decide) ((Entries.lookup_cons_of_ne (by decide) _ _).trans hlookup)
      hpart
  | openObject properties =>
    rw [keywords_openObject properties hproper]
    exact exists_stands_declared hproper (Entries.lookup_cons_self _ _ _) hpart
  | closedObject properties =>
    rw [keywords_closedObject properties hproper, keywords_openObject properties hproper]
    refine exists_stands_declared hproper ?_ hpart
    rw [Entries.lookup_cons_of_ne (by decide)]
    exact Entries.lookup_cons_self _ _ _
  | mapObject values =>
    obtain rfl := List.mem_singleton.1 hpart
    rw [keywords_mapObject]
    exact ⟨_, Json.mem_inside_single (by decide) (Entries.lookup_cons_self _ _ _) rfl⟩

end

/-! ### Verdicts -/

section

variable {m : Matcher} {judge : Judge} {keywords : Entries Json} {value : Json}

open Fragment (plainScope)

/-- The keywords of a combination find nothing wrong with a value. -/
def Passes (m : Matcher) (judge : Judge) (c : Combination) (value : Json) : Prop :=
  ∀ entry ∈ c.fragment.keywords, m.Allows judge plainScope c.fragment.keywords entry value

/-- A schema that names a type demands a value of the type first. -/
lemma allows_typed {α : Type} {make : α → Json} {name : String}
    (hmake : Matcher.hasType .draft7 value name = true → ∃ a, value = make a)
    (htype : ("type", .string name) ∈ keywords) :
    (∀ entry ∈ keywords, m.Allows judge plainScope keywords entry value)
      ↔ ∃ a, value = make a ∧ ∀ entry ∈ keywords, m.Allows judge plainScope keywords entry (make a) := by
  constructor
  · intro h
    obtain ⟨a, rfl⟩ := hmake ((Matcher.allows_type rfl name).1 (h _ htype))
    exact ⟨a, rfl, h⟩
  · rintro ⟨a, rfl, h⟩
    exact h

lemma allows_array (htype : ("type", .string "array") ∈ keywords) :
    (∀ entry ∈ keywords, m.Allows judge plainScope keywords entry value)
      ↔ ∃ items, value = .array items
        ∧ ∀ entry ∈ keywords, m.Allows judge plainScope keywords entry (.array items) :=
  allows_typed (by cases value <;> simp [Matcher.hasType]) htype

lemma allows_object (htype : ("type", .string "object") ∈ keywords) :
    (∀ entry ∈ keywords, m.Allows judge plainScope keywords entry value)
      ↔ ∃ members, value = .object members
        ∧ ∀ entry ∈ keywords, m.Allows judge plainScope keywords entry (.object members) :=
  allows_typed (by cases value <;> simp [Matcher.hasType]) htype

lemma allows_type_array {items : List Json} :
    m.Allows judge plainScope keywords ("type", .string "array") (.array items) ↔ True :=
  iff_true_intro ((Matcher.allows_type rfl "array").2 rfl)

lemma allows_type_object {members : Entries Json} :
    m.Allows judge plainScope keywords ("type", .string "object") (.object members) ↔ True :=
  iff_true_intro ((Matcher.allows_type rfl "object").2 rfl)

variable {options : Option Options}

lemma passes_anyOf {members : List Fragment} (h : Fragment.JudgedAlike options members judge) :
    (anyOf members).Passes m judge value ↔ (anyOf members).Means options value := by
  rw [Passes, keywords_anyOf, List.forall_mem_singleton, Matcher.allows_anyOf, Means]
  simp only [List.mem_map, exists_exists_and_eq_and]
  exact exists_congr fun member => and_congr_right fun hmember => h member hmember value

lemma passes_listOf {item : TypeArg} (h : Fragment.JudgedAlike options [ofType item] judge) :
    (listOf item).Passes m judge value ↔ (listOf item).Means options value := by
  rw [Passes, allows_array (by rw [keywords_listOf]; simp), Means]
  refine exists_congr fun items => and_congr_right fun _ => ?_
  rw [keywords_listOf, List.forall_mem_cons, List.forall_mem_singleton, Fragment.json,
    Matcher.allows_items_each rfl (by simp [Entries.lookup]), allows_type_array, and_true]
  exact forall₂_congr fun inner _ => h _ (List.mem_singleton_self _) inner

/-- The schemas of a tuple are for the first items. -/
lemma allows_itemsKeyword {schemas : List TypeArg} {items : List Json}
    (h : Fragment.JudgedAlike options (schemas.map ofType) judge) :
    (∀ entry ∈ itemsKeyword schemas, m.Allows judge plainScope keywords entry (.array items))
      ↔ ItemsMatch options schemas items := by
  rw [itemsKeyword]
  split
  · rename_i hnil
    simp [hnil, ItemsMatch]
  · rw [List.forall_mem_singleton, Matcher.allows_items_listed rfl, ItemsMatch]
    simp only [List.getElem?_map, Option.map_eq_some_iff]
    constructor
    · intro hall index schema item hschema hitem
      have hpart : ofType schema ∈ schemas.map ofType :=
        List.mem_map_of_mem (List.mem_of_getElem? hschema)
      exact (h _ hpart item).1 (hall index _ item ⟨_, ⟨_, hschema, rfl⟩, rfl⟩ hitem)
    · rintro hall index _ item ⟨_, ⟨schema, hschema, rfl⟩, rfl⟩ hitem
      have hpart : ofType schema ∈ schemas.map ofType :=
        List.mem_map_of_mem (List.mem_of_getElem? hschema)
      exact (h _ hpart item).2 (hall index schema item hschema hitem)

lemma passes_openTuple {schemas : List TypeArg}
    (h : Fragment.JudgedAlike options (schemas.map ofType) judge) :
    (openTuple schemas).Passes m judge value ↔ (openTuple schemas).Means options value := by
  rw [Passes, allows_array (by rw [keywords_openTuple]; simp), Means]
  refine exists_congr fun items => and_congr_right fun _ => ?_
  rw [keywords_openTuple, List.forall_mem_append, allows_itemsKeyword h, List.forall_mem_cons,
    List.forall_mem_singleton, Json.int, Matcher.allows_minItems rfl, allows_type_array, and_true,
    and_comm]

/-- A tuple that is closed has no items beyond its schemas. -/
lemma passes_closedTuple {schemas : List TypeArg}
    (h : Fragment.JudgedAlike options (schemas.map ofType) judge) :
    (closedTuple schemas).Passes m judge value ↔ (closedTuple schemas).Means options value := by
  rw [Passes, allows_array (by rw [keywords_closedTuple]; simp), Means]
  refine exists_congr fun items => and_congr_right fun _ => ?_
  -- `additionalItems` has nothing to add to `maxItems`, and without schemas says nothing at all
  have hadditional : items.length ≤ schemas.length → ∀ listed, Entries.lookup "items"
      (closedTuple schemas).fragment.keywords = some (.array listed) → items.length ≤ listed.length := by
    intro hle listed hlisted
    by_cases hne : schemas = []
    · simp [keywords_closedTuple, itemsKeyword, hne, Entries.lookup] at hlisted
    · rw [keywords_closedTuple, List.cons_append, Entries.lookup_cons_of_ne (by decide),
        lookup_itemsKeyword _ hne] at hlisted
      obtain rfl := Json.array.inj (Option.some.inj hlisted)
      simpa using hle
  rw [keywords_closedTuple, List.cons_append] at hadditional ⊢
  rw [List.forall_mem_cons, List.forall_mem_append, List.forall_mem_cons, List.forall_mem_cons,
    List.forall_mem_singleton, Matcher.allows_additionalItems rfl, allows_itemsKeyword h, Json.int,
    Matcher.allows_maxItems rfl, Matcher.allows_minItems rfl, allows_type_array]
  constructor
  · rintro ⟨-, hmatch, hmax, hmin, -⟩
    exact ⟨Nat.le_antisymm hmax hmin, hmatch⟩
  · rintro ⟨heq, hmatch⟩
    exact ⟨hadditional heq.le, hmatch, heq.le, heq.ge, trivial⟩

/-! #### Objects -/

variable {properties : List (String × Fragment)} {members : Entries Json}

lemma allows_requiredKeyword : (∀ entry ∈ requiredKeyword (requiredNames properties),
      m.Allows judge plainScope keywords entry (.object members))
    ↔ ∀ property ∈ properties, property.2.optionalMark? ≠ some true →
      Entries.contains property.1 members = true := by
  have hnames : (∀ name ∈ requiredNames properties, Entries.contains name members = true)
      ↔ ∀ property ∈ properties, property.2.optionalMark? ≠ some true →
        Entries.contains property.1 members = true := by
    simp only [requiredNames, List.forall_mem_map, List.mem_filter, decide_eq_true_eq, and_imp]
  rw [← hnames, requiredKeyword]
  split
  · rename_i hnil
    simp [hnil]
  · rw [List.forall_mem_singleton, Matcher.allows_required]
    exact ⟨fun h => h members rfl, fun h _ hvalue => Json.object.inj hvalue ▸ h⟩

/-- Where the parts are judged as by themselves, declared members match what is declared for them. -/
lemma declared_iff (hnodup : (properties.map Prod.fst).Nodup)
    (h : Fragment.JudgedAlike options (properties.map Prod.snd) judge) :
    (∀ name schema, Entries.lookup name (declared properties) = some schema →
        ∀ member, Entries.lookup name members = some member → judge plainScope schema member = [])
      ↔ ∀ property ∈ properties, ∀ member, Entries.lookup property.1 members = some member →
        property.2.Accepts options member := by
  constructor
  · intro hall property hproperty member hmember
    have hschema := (lookup_declared hnodup).2 ⟨property, hproperty, rfl, rfl⟩
    exact (h _ (List.mem_map_of_mem hproperty) member).1 (hall _ _ hschema member hmember)
  · intro hall name schema hschema member hmember
    obtain ⟨property, hproperty, rfl, rfl⟩ := (lookup_declared hnodup).1 hschema
    exact (h _ (List.mem_map_of_mem hproperty) member).2 (hall property hproperty member hmember)

lemma passes_openObject (hnodup : (properties.map Prod.fst).Nodup)
    (h : Fragment.JudgedAlike options (properties.map Prod.snd) judge) :
    (openObject properties).Passes m judge value ↔ (openObject properties).Means options value := by
  rw [Passes, allows_object (by rw [keywords_openObject properties hnodup]; simp), Means]
  refine exists_congr fun members => and_congr_right fun _ => ?_
  have hanswers : Matcher.answersForMembers (openObject properties).fragment.keywords = false := by
    rw [keywords_openObject properties hnodup, requiredKeyword]
    split <;> rfl
  rw [keywords_openObject properties hnodup, List.cons_append] at hanswers ⊢
  rw [List.forall_mem_cons, List.forall_mem_append, List.forall_mem_singleton,
    Matcher.allows_properties rfl hanswers, allows_requiredKeyword, allows_type_object, and_true,
    and_comm, MembersMatch]
  refine and_congr_right fun _ => ?_
  exact (Entries.forall_mem_iff (Entries.sorted_ofPairs _)).trans (declared_iff hnodup h)

lemma passes_closedObject (hnodup : (properties.map Prod.fst).Nodup)
    (h : Fragment.JudgedAlike options (properties.map Prod.snd) judge) (hvalue : value.WellFormed) :
    (closedObject properties).Passes m judge value ↔ (closedObject properties).Means options value := by
  rw [Passes, allows_object (by rw [keywords_closedObject properties hnodup,
    keywords_openObject properties hnodup]; simp), Means]
  refine exists_congr fun members => and_congr_right fun heq => ?_
  have hsorted : Entries.Sorted members := (heq ▸ hvalue : (Json.object members).WellFormed).1
  have hpatterns : Entries.lookup "patternProperties" (closedObject properties).fragment.keywords
      = none := by
    rw [keywords_closedObject properties hnodup, keywords_openObject properties hnodup, requiredKeyword]
    split <;> rfl
  rw [keywords_closedObject properties hnodup, keywords_openObject properties hnodup,
    List.cons_append] at hpatterns ⊢
  rw [List.forall_mem_cons, List.forall_mem_cons, List.forall_mem_append, List.forall_mem_singleton,
    Matcher.allows_additionalProperties_false rfl hpatterns rfl, allows_requiredKeyword,
    allows_type_object, and_true]
  have hmatched : (∀ member ∈ members, ∀ schema,
      Entries.lookup member.1 (declared properties) = some schema →
        judge plainScope schema member.2 = [])
      ↔ ∀ property ∈ properties, ∀ member, Entries.lookup property.1 members = some member →
        property.2.Accepts options member := by
    refine (Entries.forall_mem_iff hsorted).trans (Iff.trans ?_ (declared_iff hnodup h))
    exact forall_congr' fun name => ⟨fun hall schema hschema member hmember =>
      hall member hmember schema hschema, fun hall member hmember schema hschema =>
      hall schema hschema member hmember⟩
  simp only [forall_and, contains_declared hnodup, hmatched]
  constructor
  · rintro ⟨⟨honly, hmatch⟩, -, hrequired⟩
    exact ⟨⟨hrequired, hmatch⟩, honly⟩
  · rintro ⟨⟨hrequired, hmatch⟩, honly⟩
    exact ⟨⟨honly, hmatch⟩, Matcher.allows_properties_answered rfl rfl, hrequired⟩

lemma passes_mapObject {values : Fragment} (h : Fragment.JudgedAlike options [values] judge) :
    (mapObject values).Passes m judge value ↔ (mapObject values).Means options value := by
  rw [Passes, allows_object (by rw [keywords_mapObject]; simp), Means]
  refine exists_congr fun members => and_congr_right fun _ => ?_
  rw [keywords_mapObject, List.forall_mem_cons, List.forall_mem_cons, List.forall_mem_singleton,
    Fragment.json, Matcher.allows_additionalProperties_schema rfl rfl rfl, allows_type_object, and_true,
    and_iff_left (Matcher.allows_properties_answered rfl rfl)]
  exact forall₂_congr fun member _ => h _ (List.mem_singleton_self _) member.2

/-- Where the parts are judged as by themselves, the keywords of a combination say what it means. -/
lemma passes_iff_means {c : Combination} (hproper : c.Proper)
    (h : Fragment.JudgedAlike options c.parts judge) (hvalue : value.WellFormed) :
    c.Passes m judge value ↔ c.Means options value := by
  cases c with
  | anyOf members => exact passes_anyOf h
  | listOf item => exact passes_listOf h
  | openTuple schemas => exact passes_openTuple h
  | closedTuple schemas => exact passes_closedTuple h
  | openObject properties => exact passes_openObject hproper h
  | closedObject properties => exact passes_closedObject hproper h hvalue
  | mapObject values => exact passes_mapObject h

end

section

variable {c : Combination} {options : Option Options} (hproper : c.Proper)
  (hparts : ∀ part ∈ c.parts, part.IsPart options)

include hproper hparts

lemma settings_fragment : c.fragment.settings options = Options.merged none options := by
  rw [Fragment.settings, Fragment.options?, (composedOf hproper hparts).bare]
  rfl

/-- What combinators make of parts is a part in its turn: it compiles, and combinators may be nested. -/
theorem isPart (hdraft : (Options.merged none options).matcher.effectiveDraft = .draft7)
    (hkeywords : ∃ extensions, Extension.resolve (Options.merged none options).keywords = .ok extensions)
    (hretains : ∀ part ∈ c.parts, Fragment.Retains options c.fragment part) :
    c.fragment.IsPart options := by
  obtain ⟨extensions, hresolve⟩ := hkeywords
  rw [← settings_fragment hproper hparts] at hdraft hresolve
  exact (composedOf hproper hparts).isPart hparts hretains hdraft hresolve

end

/-- **Combinators mean what they say**: what they make of schemas compiles, and accepts what these let it
accept, provided that the schemas keep their settings in it and the names in them their meaning. -/
theorem accepts_iff_means (c : Combination) (hproper : c.Proper) (options : Option Options)
    (hdraft : (Options.merged none options).matcher.effectiveDraft = .draft7)
    (hkeywords : ∃ extensions, Extension.resolve (Options.merged none options).keywords = .ok extensions)
    (hparts : ∀ part ∈ c.parts, part.IsPart options)
    (hretains : ∀ part ∈ c.parts, Fragment.Retains options c.fragment part)
    (value : Json) (hvalue : value.WellFormed) :
    (∃ validator, Validator.compile c.fragment options = .ok validator)
      ∧ (c.fragment.Accepts options value ↔ c.Means options value) := by
  refine ⟨(isPart hproper hparts hdraft hkeywords hretains).compiles, ?_⟩
  obtain ⟨extensions, hresolve⟩ := hkeywords
  rw [← settings_fragment hproper hparts] at hdraft hresolve
  obtain ⟨judge, hjudge, haccepts⟩ := (composedOf hproper hparts).accepts_iff_judge hparts hretains
    hdraft (fun part hpart => exists_stands hproper hpart) hresolve value
  exact haccepts.trans (passes_iff_means hproper hjudge hvalue)

/-- Orders have numbers of articles, and may have a note. -/
def order : Combination :=
  closedObject [("articles", (listOf (.name "integer")).fragment),
    ("note", (Fragment.ofKind .string).optional)]

theorem order_means : order.Proper ∧ (∀ part ∈ order.parts, part.IsPart none)
    ∧ (∀ part ∈ order.parts, Fragment.Retains none order.fragment part)
    ∧ order.Means none (.object [("articles", .array [.int 1, .int 2])]) := by
  have hproper : order.Proper := by simp [order, Proper]
  have hparts : ∀ part ∈ order.parts, part.IsPart none := by decide +kernel
  have hoptions : ∀ part ∈ order.parts, part.options?.isNone = true := by decide +kernel
  have hnameless : ∀ part ∈ order.parts, ∀ entry ∈ part.json.subschemas,
      namedClasses entry.2 = [] ∧ namedTransforms entry.2 = [] := by
    decide +kernel
  have hretains : ∀ part ∈ order.parts, Fragment.Retains none order.fragment part :=
    fun part hpart => .of_nameless (Option.isNone_iff_eq_none.1 (hoptions part hpart)) rfl
      (Json.forall_holds_iff.2 (hnameless part hpart))
  obtain ⟨-, hmeans⟩ := accepts_iff_means order hproper none rfl ⟨_, rfl⟩ hparts hretains
    (.object [("articles", .array [.int 1, .int 2])]) (by decide)
  exact ⟨hproper, hparts, hretains, hmeans.1 (by decide +kernel)⟩

/-! ### Provisos -/

/-- A union of schemas that compile accepts something else than what some of them accept. -/
def Misleads (members : List Fragment) (value : Json) : Prop :=
  (anyOf members).Proper ∧ (∀ part ∈ (anyOf members).parts, part.IsPart none)
    ∧ ¬((anyOf members).fragment.Accepts none value ↔ (anyOf members).Means none value)

lemma misleads_iff {members : List Fragment} {value : Json} : Misleads members value
    ↔ members ≠ [] ∧ (∀ part ∈ members, part.IsPart none)
      ∧ ¬((anyOf members).fragment.Accepts none value
        ↔ ∃ member ∈ members, member.Accepts none value) :=
  Iff.rfl

/-- A schema of the instances of a class that it carries, all values or none. -/
def rival (all : Bool) : Fragment where
  keywords := [("instanceOf", .string "X")]
  records := Table.ofPairs [("", { constructors := some (Class.table [⟨"X", fun _ => all, .ok⟩]) })]

/-- A schema with options attached, which enforce formats. -/
def formatted : Fragment where
  keywords := [("format", .string "regex")]
  records := Table.ofPairs
    [("", { validatorOptions := some { matcher := { validateFormats := some true } } })]

/-- A schema with options attached, which enable an extension keyword. -/
def discreet : Fragment where
  keywords := [("prohibited", .array [.string "secret"])]
  records := Table.ofPairs [("", { validatorOptions := some { keywords := ["prohibited"] } })]

/-- A schema with options attached, which know its transform. -/
def rewritten : Fragment where
  keywords := [("transform", .array [.string "t"])]
  records :=
    let transforms := Table.ofPairs [("t", Transform.ofFunction .ok)]
    Table.ofPairs [("", { validatorOptions := some { transforms := transforms } })]

/-- A union has room for one class of a name, and none for the options attached to its members. -/
theorem unions_mislead : Misleads [rival false, rival true] (.object [])
    ∧ Misleads [formatted] (.string "(")
    ∧ Misleads [discreet] (.object [("secret", .null)])
    ∧ Misleads [rewritten] .null := by
  refine ⟨misleads_iff.2 ⟨by simp, ?_, ?_⟩, misleads_iff.2 ⟨by simp, ?_, ?_⟩,
    misleads_iff.2 ⟨by simp, ?_, ?_⟩, misleads_iff.2 ⟨by simp, ?_, ?_⟩⟩
  all_goals decide +kernel

end Combination

end SchemaAlgebra
