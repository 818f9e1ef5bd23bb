import SchemaAlgebra.Plan.Basic
import SchemaAlgebra.Proofs.Reach

/-!
# What matching a schema depends on

What a schema finds wrong with a value depends on how the schemas in reach of it are judged, and on
nothing else (`Matcher.keywordViolations_congr`).  What a keyword finds wrong depends on few of the
keywords beside it (`Matcher.SameSiblings.keywordViolations_eq`): not on the definitions, nor on the
dialect that the schema announces.
-/

namespace SchemaAlgebra

namespace Matcher

/-! ## Judgements of the schemas in reach -/

section Judges

variable {judge judge' : Judge} {scope scope' : Scope} {keywords : Entries Json} {keyword : String}
  {argument schema value : Json}

lemma applyTo_congr {route : List String} {token : String}
    (h : judge scope schema value = judge' scope' schema value) :
    applyTo judge scope route token schema value = applyTo judge' scope' route token schema value := by
  rw [applyTo, applyTo, h]

lemma applyHere_congr {route : List String}
    (h : judge scope schema value = judge' scope' schema value) :
    applyHere judge scope route schema value = applyHere judge' scope' route schema value := by
  rw [applyHere, applyHere, h]

lemma satisfies_congr (h : judge scope schema value = judge' scope' schema value) :
    satisfies judge scope schema value = satisfies judge' scope' schema value := by
  rw [satisfies, satisfies, h]

lemma any_congr_of_mem {p q : Json → Bool} {values : List Json} (h : ∀ a ∈ values, p a = q a) :
    values.any p = values.any q := by
  rw [Bool.eq_iff_iff, List.any_eq_true, List.any_eq_true]
  refine exists_congr fun a => and_congr_right fun ha => ?_
  rw [h a ha]

lemma itemByItem_congr {schemas items : List Json}
    (h : ∀ (index : ℕ) schema item, schemas[index]? = some schema → items[index]? = some item →
      judge scope schema item = judge' scope' schema item) :
    itemByItem judge scope keyword schemas items = itemByItem judge' scope' keyword schemas items := by
  refine List.flatMap_congr ?_
  rintro ⟨⟨schema, item⟩, index⟩ hmem
  obtain ⟨hschema, hitem⟩ := List.getElem?_zip_eq_some.1 (List.mk_mem_zipIdx_iff_getElem?.1 hmem)
  exact applyTo_congr (h index schema item hschema hitem)

lemma itemsFrom_congr {items : List Json} {first : ℕ}
    (h : ∀ (index : ℕ) item, first ≤ index → items[index]? = some item →
      judge scope schema item = judge' scope' schema item) :
    itemsFrom judge scope keyword first schema items
      = itemsFrom judge' scope' keyword first schema items := by
  refine List.flatMap_congr ?_
  rintro ⟨item, index⟩ hmem
  obtain ⟨further, hfurther⟩ := List.mem_iff_getElem?.1 hmem
  rw [List.getElem?_drop, List.getElem?_zipIdx, Option.map_eq_some_iff] at hfurther
  obtain ⟨_, hitem, heq⟩ := hfurther
  obtain ⟨rfl, rfl⟩ := Prod.mk.inj heq
  rw [Nat.zero_add]
  exact applyTo_congr (h _ _ (Nat.le_add_right _ _) hitem)

lemma items_congr {values : List Json}
    (hlisted : ∀ schemas, argument = .array schemas → ∀ (index : ℕ) schema item,
      schemas[index]? = some schema → values[index]? = some item →
      judge scope schema item = judge' scope' schema item)
    (hsingle : (∀ schemas, argument ≠ .array schemas) → ∀ (index : ℕ) item,
      prefixLength keywords ≤ index → values[index]? = some item →
      judge scope argument item = judge' scope' argument item) :
    items judge scope keywords argument values = items judge' scope' keywords argument values := by
  unfold items
  split
  · exact itemByItem_congr (hlisted _ rfl)
  · rename_i hlist
    exact itemsFrom_congr (hsingle hlist)

lemma additionalItems_congr {values : List Json}
    (h : ∀ schemas, Entries.lookup "items" keywords = some (.array schemas) → ∀ (index : ℕ) item,
      schemas.length ≤ index → values[index]? = some item →
      judge scope argument item = judge' scope' argument item) :
    additionalItems judge scope keywords argument values
      = additionalItems judge' scope' keywords argument values := by
  unfold additionalItems
  split
  · rfl
  · rename_i hlist
    exact itemsFrom_congr (h _ hlist)
  · rfl

lemma contains_congr {values : List Json} (hdraft : scope.draft = scope'.draft)
    (h : ∀ item ∈ values, judge scope argument item = judge' scope' argument item) :
    contains judge scope keywords argument values = contains judge' scope' keywords argument values := by
  have hcount : values.countP (satisfies judge scope argument)
      = values.countP (satisfies judge' scope' argument) :=
    List.countP_congr fun item hitem => by rw [satisfies_congr (h item hitem)]
  rw [contains, contains, hcount, hdraft]

lemma negation_congr (h : judge scope argument value = judge' scope' argument value) :
    negation judge scope argument value = negation judge' scope' argument value := by
  rw [negation, negation, satisfies_congr h]

lemma coveredMember_congr {key : String}
    (hproperties : ∀ schema, Entries.lookup key (schemasUnder "properties" keywords) = some schema →
      judge scope schema value = judge' scope' schema value)
    (hpatterns : ∀ entry ∈ patternsFor keywords key,
      judge scope entry.2 value = judge' scope' entry.2 value) :
    coveredMember judge scope keywords key value = coveredMember judge' scope' keywords key value := by
  refine congrArg₂ _ ?_ (List.flatMap_congr ?_)
  · split
    · rename_i schema hlookup
      exact applyTo_congr (hproperties schema hlookup)
    · rfl
  · exact fun entry hentry => applyTo_congr (hpatterns entry hentry)

lemma additionalProperties_congr {members : Entries Json}
    (hproperties : ∀ member ∈ members, ∀ schema,
      Entries.lookup member.1 (schemasUnder "properties" keywords) = some schema →
        judge scope schema member.2 = judge' scope' schema member.2)
    (hpatterns : ∀ member ∈ members, ∀ entry ∈ patternsFor keywords member.1,
      judge scope entry.2 member.2 = judge' scope' entry.2 member.2)
    (hrest : ∀ member ∈ members, covers keywords member.1 = false →
      judge scope argument member.2 = judge' scope' argument member.2) :
    additionalProperties judge scope keywords argument members
      = additionalProperties judge' scope' keywords argument members := by
  have hcovered : ∀ member ∈ members, coveredMember judge scope keywords member.1 member.2
      = coveredMember judge' scope' keywords member.1 member.2 := fun member hmember =>
    coveredMember_congr (hproperties member hmember) (hpatterns member hmember)
  unfold additionalProperties
  split
  · split
    · exact congrArg₂ _ (List.flatMap_congr hcovered) rfl
    · rfl
  · refine List.flatMap_congr fun member hmember => ?_
    dsimp only
    split
    · exact hcovered member hmember
    · rename_i hcovers
      exact applyTo_congr (hrest member hmember (by simpa using hcovers))
  · rfl

lemma dependencies_congr {members : Entries Json}
    (h : ∀ schemas, argument = .object schemas → ∀ entry ∈ schemas, entry.2.isArray = false →
      Entries.contains entry.1 members = true →
      judge scope entry.2 (.object members) = judge' scope' entry.2 (.object members)) :
    dependencies judge scope keyword argument members
      = dependencies judge' scope' keyword argument members := by
  refine List.flatMap_congr ?_
  rintro ⟨name, dependency⟩ hmem
  have hschema : dependency.isArray = false → Entries.contains name members = true →
      judge scope dependency (.object members) = judge' scope' dependency (.object members) := by
    obtain ⟨schemas, rfl⟩ := exists_object_of_mem_members hmem
    exact h schemas rfl (name, dependency) hmem
  dsimp only
  split
  · rename_i hcontains
    split
    · rfl
    · rename_i hnot
      exact applyHere_congr (hschema (isArray_eq_false hnot) hcontains)
  · rfl

/-- Nothing follows on a condition that has no consequence. -/
lemma lookup_following_eq_none
    (h : ((Entries.lookup "then" keywords).isSome || (Entries.lookup "else" keywords).isSome) = false)
    (condition : Bool) : Entries.lookup (if condition then "then" else "else") keywords = none := by
  simp only [Bool.or_eq_false_iff, Option.isSome_eq_false_iff, Option.isNone_iff_eq_none] at h
  cases condition with
  | true => exact h.1
  | false => exact h.2

lemma conditional_congr
    (h : (Entries.contains "then" keywords || Entries.contains "else" keywords) = true →
      judge scope argument value = judge' scope' argument value
        ∧ ∀ schema, Entries.lookup (if satisfies judge scope argument value then "then" else "else")
          keywords = some schema → judge scope schema value = judge' scope' schema value) :
    conditional judge scope keywords argument value
      = conditional judge' scope' keywords argument value := by
  rw [Entries.contains_eq_isSome, Entries.contains_eq_isSome] at h
  unfold conditional
  cases hneither : (Entries.lookup "then" keywords).isSome || (Entries.lookup "else" keywords).isSome with
  | true =>
    obtain ⟨hcondition, hfollowing⟩ := h hneither
    rw [← satisfies_congr hcondition]
    dsimp only
    split
    · rename_i schema hlookup
      exact applyHere_congr (hfollowing schema hlookup)
    · rfl
  | false => simp only [lookup_following_eq_none hneither]

section Combinations

variable {schemas : List Json}
  (h : ∀ schema ∈ schemas, judge scope schema value = judge' scope' schema value)

include h

lemma allOf_congr : allOf judge scope schemas value = allOf judge' scope' schemas value := by
  refine List.flatMap_congr fun entry hentry => ?_
  exact applyHere_congr (h entry.1 (List.fst_mem_of_mem_zipIdx hentry))

lemma anyOf_congr : anyOf judge scope schemas value = anyOf judge' scope' schemas value := by
  rw [anyOf, anyOf, any_congr_of_mem fun schema hschema => satisfies_congr (h schema hschema)]

lemma oneOf_congr : oneOf judge scope schemas value = oneOf judge' scope' schemas value := by
  have hcount : schemas.countP (fun schema => satisfies judge scope schema value)
      = schemas.countP fun schema => satisfies judge' scope' schema value :=
    List.countP_congr fun schema hschema => by rw [satisfies_congr (h schema hschema)]
  rw [oneOf, oneOf, hcount]

end Combinations

lemma properties_congr {schemas members : Entries Json}
    (h : ∀ entry ∈ schemas, ∀ part, Entries.lookup entry.1 members = some part →
      judge scope entry.2 part = judge' scope' entry.2 part) :
    properties judge scope schemas members = properties judge' scope' schemas members := by
  refine List.flatMap_congr fun entry hentry => ?_
  dsimp only
  split
  · rename_i part hpart
    exact applyTo_congr (h entry hentry part hpart)
  · rfl

lemma patternProperties_congr {schemas members : Entries Json}
    (h : ∀ entry ∈ schemas, ∀ member ∈ members, patternOccurs entry.1 member.1 = true →
      judge scope entry.2 member.2 = judge' scope' entry.2 member.2) :
    patternProperties judge scope schemas members
      = patternProperties judge' scope' schemas members := by
  refine List.flatMap_congr fun entry hentry => List.flatMap_congr fun member hmember => ?_
  dsimp only
  split
  · rename_i hoccurs
    exact applyTo_congr (h entry hentry member hmember hoccurs)
  · rfl

lemma propertyNames_congr {members : Entries Json}
    (h : ∀ key, judge scope argument (.string key) = judge' scope' argument (.string key)) :
    propertyNames judge scope argument members = propertyNames judge' scope' argument members := by
  unfold propertyNames
  split
  · rfl
  · refine List.flatMap_congr fun key _ => ?_
    rw [h key]

/-! ## What keywords apply -/

lemma schemasApplied_items_of_not_array (h : ∀ schemas, argument ≠ .array schemas) :
    schemasApplied keywords "items" argument = [argument] := by
  cases argument with
  | array schemas => exact absurd rfl (h schemas)
  | _ => rfl

lemma mem_schemasApplied_of_mem_items (hkeyword : keyword ∈ ["allOf", "anyOf", "oneOf", "prefixItems"])
    (h : schema ∈ (argument.items?).getD []) : schema ∈ schemasApplied keywords keyword argument := by
  obtain ⟨schemas, rfl⟩ := exists_array_of_mem_items h
  simp only [List.mem_cons, List.not_mem_nil, or_false] at hkeyword
  rcases hkeyword with rfl | rfl | rfl | rfl <;> exact h

lemma mem_schemasApplied_of_mem_members (hkeyword : keyword ∈ ["properties", "patternProperties"])
    (halone : answersForMembers keywords = false)
    (h : schema ∈ ((argument.members?).getD []).map Prod.snd) :
    schema ∈ schemasApplied keywords keyword argument := by
  obtain ⟨entry, hentry, rfl⟩ := List.mem_map.1 h
  obtain ⟨schemas, rfl⟩ := exists_object_of_mem_members hentry
  simp only [List.mem_cons, List.not_mem_nil, or_false] at hkeyword
  rcases hkeyword with rfl | rfl <;> simpa [schemasApplied, halone, Json.members?] using h

lemma mem_schemasApplied_of_condition
    (hfollowing : (Entries.contains "then" keywords || Entries.contains "else" keywords) = true)
    (h : schema = argument ∨ schema ∈ (Entries.lookup "then" keywords).toList
      ∨ schema ∈ (Entries.lookup "else" keywords).toList) :
    schema ∈ schemasApplied keywords "if" argument := by
  simpa [schemasApplied, hfollowing] using h

lemma mem_schemasApplied_of_answers (hanswers : answersForMembers keywords = true)
    (h : schema ∈ (schemasUnder "patternProperties" keywords).map Prod.snd
      ∨ schema ∈ (schemasUnder "properties" keywords).map Prod.snd ∨ schema = argument) :
    schema ∈ schemasApplied keywords "additionalProperties" argument := by
  simpa [schemasApplied, hanswers] using h

lemma mem_schemasApplied_of_dependency (hkeyword : keyword ∈ ["dependencies", "dependentSchemas"])
    {schemas : Entries Json} {entry : String × Json} (hentry : entry ∈ schemas)
    (harray : entry.2.isArray = false) : entry.2 ∈ schemasApplied keywords keyword (.object schemas) := by
  have hmem : entry.2 ∈ (schemas.map Prod.snd).filter fun schema => !schema.isArray :=
    List.mem_filter.2 ⟨List.mem_map_of_mem hentry, by rw [harray]; rfl⟩
  simp only [List.mem_cons, List.not_mem_nil, or_false] at hkeyword
  rcases hkeyword with rfl | rfl <;> exact hmem

/-- An argument that does not answer for the members finds nothing wrong with them. -/
lemma additionalProperties_of_not_answers
    (hlookup : Entries.lookup "additionalProperties" keywords = some argument)
    (hanswers : answersForMembers keywords = false) (members : Entries Json) :
    additionalProperties judge scope keywords argument members = [] := by
  rw [answersForMembers, hlookup] at hanswers
  unfold additionalProperties
  split <;> simp_all

/-- The keywords that apply schemas to the value itself. -/
def appliedInPlace : List String :=
  ["allOf", "anyOf", "oneOf", "not", "if", "dependencies", "dependentSchemas"]

/-- The values that a keyword applies schemas to are the value itself, or lie further in. -/
def Within (keyword : String) (value inner : Json) : Prop :=
  if keyword ∈ appliedInPlace then inner = value else inner.depth < value.depth

lemma depth_item_lt {items : List Json} {item : Json} (h : item ∈ items) :
    item.depth < (Json.array items).depth :=
  Nat.lt_succ_of_le (Json.depth_le_of_mem_items h)

lemma depth_member_lt {members : Entries Json} {member : String × Json} (h : member ∈ members) :
    member.2.depth < (Json.object members).depth :=
  Nat.lt_succ_of_le (Json.depth_le_of_mem_members h)

lemma depth_key_lt (key : String) (members : Entries Json) :
    (Json.string key).depth < (Json.object members).depth :=
  Nat.succ_pos _

/-- **A keyword depends on the schemas it applies**, and on how these judge what it applies them to. -/
lemma apply_congr (hdraft : scope.draft = scope'.draft)
    (hlookup : Entries.lookup keyword keywords = some argument)
    (h : ∀ schema ∈ schemasApplied keywords keyword argument, ∀ inner, Within keyword value inner →
      judge scope schema inner = judge' scope' schema inner) :
    apply judge scope keywords keyword argument value
      = apply judge' scope' keywords keyword argument value := by
  unfold apply
  dsimp only
  split
  · exact allOf_congr fun schema hschema =>
      h schema (mem_schemasApplied_of_mem_items (by simp) hschema) _ rfl
  · exact anyOf_congr fun schema hschema =>
      h schema (mem_schemasApplied_of_mem_items (by simp) hschema) _ rfl
  · exact oneOf_congr fun schema hschema =>
      h schema (mem_schemasApplied_of_mem_items (by simp) hschema) _ rfl
  · exact negation_congr (h argument List.mem_cons_self value rfl)
  · refine conditional_congr fun hfollowing =>
      ⟨h _ (mem_schemasApplied_of_condition hfollowing (Or.inl rfl)) value rfl, fun schema hschema => ?_⟩
    refine h schema (mem_schemasApplied_of_condition hfollowing (Or.inr ?_)) value rfl
    split at hschema
    · exact Or.inl (Option.mem_toList.2 hschema)
    · exact Or.inr (Option.mem_toList.2 hschema)
  · split
    · rfl
    · rename_i halone
      exact properties_congr fun entry hentry part hpart =>
        h entry.2 (mem_schemasApplied_of_mem_members (by simp) (by simpa using halone)
          (List.mem_map_of_mem hentry)) _ (depth_member_lt (Entries.mem_of_lookup hpart))
  · split
    · rfl
    · rename_i halone
      exact patternProperties_congr fun entry hentry member hmember _ =>
        h entry.2 (mem_schemasApplied_of_mem_members (by simp) (by simpa using halone)
          (List.mem_map_of_mem hentry)) _ (depth_member_lt hmember)
  · rename_i members
    -- a keyword that does not answer for the members finds nothing, whatever the judge
    by_cases hanswers : answersForMembers keywords = true
    · have hin : ∀ schema, schema ∈ (schemasUnder "patternProperties" keywords).map Prod.snd
          ∨ schema ∈ (schemasUnder "properties" keywords).map Prod.snd ∨ schema = argument →
          ∀ member ∈ members, judge scope schema member.2 = judge' scope' schema member.2 :=
        fun schema hschema member hmember =>
          h schema (mem_schemasApplied_of_answers hanswers hschema) _ (depth_member_lt hmember)
      exact additionalProperties_congr
        (fun member hmember schema hschema => hin schema (Or.inr (Or.inl
          (List.mem_map_of_mem (f := Prod.snd) (Entries.mem_of_lookup hschema)))) member hmember)
        (fun member hmember entry hentry => hin entry.2
          (Or.inl (List.mem_map_of_mem (List.mem_filter.1 hentry).1)) member hmember)
        fun member hmember _ => hin argument (Or.inr (Or.inr rfl)) member hmember
    · have hanswers := Bool.eq_false_iff.2 hanswers
      rw [additionalProperties_of_not_answers hlookup hanswers,
        additionalProperties_of_not_answers hlookup hanswers]
  · exact propertyNames_congr fun key => h argument List.mem_cons_self _ (depth_key_lt key _)
  · refine dependencies_congr fun schemas hargument entry hentry harray _ => h entry.2 ?_ _ rfl
    exact hargument ▸ mem_schemasApplied_of_dependency (by simp) hentry harray
  · refine dependencies_congr fun schemas hargument entry hentry harray _ => h entry.2 ?_ _ rfl
    exact hargument ▸ mem_schemasApplied_of_dependency (by simp) hentry harray
  · refine items_congr (fun schemas hargument index schema item hschema hitem => ?_)
      fun hlist index item _ hitem => ?_
    · subst hargument
      exact h schema (List.mem_of_getElem? hschema) item (depth_item_lt (List.mem_of_getElem? hitem))
    · rw [schemasApplied_items_of_not_array hlist] at h
      exact h argument List.mem_cons_self item (depth_item_lt (List.mem_of_getElem? hitem))
  · exact itemByItem_congr fun index schema item hschema hitem =>
      h schema (mem_schemasApplied_of_mem_items (by simp) (List.mem_of_getElem? hschema)) item
        (depth_item_lt (List.mem_of_getElem? hitem))
  · refine additionalItems_congr fun schemas hlist index item _ hitem =>
      h argument ?_ item (depth_item_lt (List.mem_of_getElem? hitem))
    simp [schemasApplied, hlist]
  · exact contains_congr hdraft fun item hitem =>
      h argument List.mem_cons_self item (depth_item_lt hitem)
  · rfl

end Judges

/-! ## Keywords that say nothing about values -/

section Siblings

variable {keywords others : Entries Json} {key keyword : String} {argument value : Json}

/-- The keywords of a schema that it does not share with its document: those that matching heeds. -/
def own (keywords : Entries Json) : Entries Json :=
  keywords.filter fun entry => entry.1 ∉ Plan.sharedKeywords

lemma lookup_own (hkey : key ∉ Plan.sharedKeywords) (keywords : Entries Json) :
    Entries.lookup key (own keywords) = Entries.lookup key keywords := by
  induction keywords with
  | nil => rfl
  | cons entry rest ih =>
    obtain ⟨k, v⟩ := entry
    by_cases hk : k ∈ Plan.sharedKeywords
    · have hne : k ≠ key := fun h => hkey (h ▸ hk)
      rw [Entries.lookup_cons_of_ne hne, ← ih]
      simp [own, hk]
    · have hcons : own ((k, v) :: rest) = (k, v) :: own rest := by
        simp [own, hk]
      simp only [hcons, Entries.lookup, ih]

lemma lookup_eq_of_own (h : own keywords = own others) (key : String)
    (hkey : key ∉ Plan.sharedKeywords) :
    Entries.lookup key keywords = Entries.lookup key others := by
  rw [← lookup_own hkey keywords, h, lookup_own hkey others]

lemma contains_eq_of_own (h : own keywords = own others) (key : String)
    (hkey : key ∉ Plan.sharedKeywords) :
    Entries.contains key keywords = Entries.contains key others := by
  rw [Entries.contains_eq_isSome, Entries.contains_eq_isSome, lookup_eq_of_own h key hkey]

/-- The keywords that have a say in what the keywords beside them mean. -/
def siblingKeywords : List String :=
  ["$ref", "then", "else", "items", "prefixItems", "properties", "patternProperties",
    "additionalProperties", "exclusiveMinimum", "exclusiveMaximum", "minContains", "maxContains"]

/-- Two schemas agree on the keywords that have a say in what others mean. -/
def SameSiblings (keywords others : Entries Json) : Prop :=
  ∀ key ∈ siblingKeywords, Entries.lookup key keywords = Entries.lookup key others

lemma sameSiblings_of_own (h : own keywords = own others) : SameSiblings keywords others := by
  intro key hkey
  refine lookup_eq_of_own h key ?_
  revert key
  decide

lemma SameSiblings.contains_eq (h : SameSiblings keywords others) (key : String)
    (hkey : key ∈ siblingKeywords) : Entries.contains key keywords = Entries.contains key others := by
  rw [Entries.contains_eq_isSome, Entries.contains_eq_isSome, h key hkey]

lemma SameSiblings.schemasUnder_eq (h : SameSiblings keywords others) (key : String)
    (hkey : key ∈ siblingKeywords) :
    schemasUnder key keywords = schemasUnder key others := by
  rw [schemasUnder, schemasUnder, h key hkey]

lemma SameSiblings.reference?_eq (h : SameSiblings keywords others) :
    Draft.reference? keywords = Draft.reference? others := by
  rw [Draft.reference?, Draft.reference?, h _ (by decide)]

lemma SameSiblings.answersForMembers_eq (h : SameSiblings keywords others) :
    answersForMembers keywords = answersForMembers others := by
  rw [answersForMembers, answersForMembers, h _ (by decide)]

lemma SameSiblings.patternsFor_eq (h : SameSiblings keywords others) (name : String) :
    patternsFor keywords name = patternsFor others name := by
  rw [patternsFor, patternsFor, h.schemasUnder_eq _ (by decide)]

lemma SameSiblings.covers_eq (h : SameSiblings keywords others) (name : String) :
    covers keywords name = covers others name := by
  rw [covers, covers, h.schemasUnder_eq _ (by decide), h.patternsFor_eq]

lemma SameSiblings.patternsUsed_eq (h : SameSiblings keywords others) :
    patternsUsed keywords keyword argument = patternsUsed others keyword argument := by
  unfold patternsUsed
  rw [h.schemasUnder_eq _ (by decide)]

lemma SameSiblings.schemasApplied_eq (h : SameSiblings keywords others) :
    schemasApplied keywords keyword argument = schemasApplied others keyword argument := by
  unfold schemasApplied
  dsimp only
  rw [h.contains_eq "then" (by decide),
    h.contains_eq "else" (by decide),
    h "then" (by decide), h "else" (by decide),
    h "items" (by decide), h.answersForMembers_eq,
    h.schemasUnder_eq "patternProperties" (by decide),
    h.schemasUnder_eq "properties" (by decide)]

lemma SameSiblings.read?_eq (h : SameSiblings keywords others) {registry : Registry}
    {extensions : List Extension} :
    Assertion.read? registry extensions keywords keyword argument
      = Assertion.read? registry extensions others keyword argument := by
  have hnames : Assertion.declaredNames keywords = Assertion.declaredNames others := by
    rw [Assertion.declaredNames, Assertion.declaredNames, h _ (by decide)]
  have hpresence : ∀ rule, Assertion.readPresence keywords rule argument
      = Assertion.readPresence others rule argument := by
    intro rule
    unfold Assertion.readPresence
    rw [hnames]
  unfold Assertion.read?
  simp only [hpresence]

lemma SameSiblings.lead_eq (h : SameSiblings keywords others) {m : Matcher} {draft : Draft}
    (entry : String × Json) : m.lead draft keywords entry = m.lead draft others entry := by
  unfold lead
  rw [h.read?_eq]
  simp only [h.patternsUsed_eq, h.schemasApplied_eq]

lemma SameSiblings.isExclusive_eq (h : SameSiblings keywords others) {draft : Draft} (key : String)
    (hkey : key ∈ siblingKeywords) :
    isExclusive draft keywords key = isExclusive draft others key := by
  rw [isExclusive, isExclusive, h key hkey]

lemma SameSiblings.assert_eq (h : SameSiblings keywords others) {enforcesFormats : Bool} {draft : Draft} :
    assert enforcesFormats draft keywords keyword argument value
      = assert enforcesFormats draft others keyword argument value := by
  unfold assert minimum maximum
  rw [h.isExclusive_eq "exclusiveMinimum" (by decide),
    h.isExclusive_eq "exclusiveMaximum" (by decide)]

variable {judge : Judge} {scope : Scope}

lemma SameSiblings.coveredMember_eq (h : SameSiblings keywords others) {name : String} :
    coveredMember judge scope keywords name value = coveredMember judge scope others name value := by
  rw [coveredMember, coveredMember, h.schemasUnder_eq _ (by decide), h.patternsFor_eq]

lemma SameSiblings.additionalProperties_eq (h : SameSiblings keywords others) {members : Entries Json} :
    additionalProperties judge scope keywords argument members
      = additionalProperties judge scope others argument members := by
  unfold additionalProperties
  simp only [h.coveredMember_eq, h.covers_eq,
    h.contains_eq "properties" (by decide),
    h.contains_eq "patternProperties" (by decide)]

lemma SameSiblings.conditional_eq (h : SameSiblings keywords others) :
    conditional judge scope keywords argument value
      = conditional judge scope others argument value := by
  unfold conditional
  dsimp only
  rw [h _ (by split <;> decide)]

lemma SameSiblings.containsLimits_eq (h : SameSiblings keywords others) (draft : Draft) :
    containsLimits draft keywords = containsLimits draft others := by
  simp only [containsLimits, containsLimit?, h "minContains" (by decide), h "maxContains" (by decide)]

lemma SameSiblings.apply_eq (h : SameSiblings keywords others) :
    apply judge scope keywords keyword argument value
      = apply judge scope others keyword argument value := by
  unfold apply
  simp only [h.answersForMembers_eq, h.additionalProperties_eq,
    h.conditional_eq, items, prefixLength, additionalItems, contains, h.containsLimits_eq,
    h "prefixItems" (by decide),
    h "items" (by decide)]

/-! ## Matchers with the same settings -/

/-- Two matchers are set up alike, whatever their documents. -/
structure Alike (m m' : Matcher) : Prop where
  formats : m.enforcesFormats = m'.enforcesFormats
  extensions : m.extensions = m'.extensions
  registry : m.registry = m'.registry

lemma Alike.symm {m m' : Matcher} (h : m.Alike m') : m'.Alike m :=
  ⟨h.formats.symm, h.extensions.symm, h.registry.symm⟩

lemma Alike.lead_eq {m m' : Matcher} (h : m.Alike m') {draft : Draft} (entry : String × Json) :
    m.lead draft keywords entry = m'.lead draft keywords entry := by
  rw [lead, lead, h.registry, h.extensions]

lemma SameSiblings.keywordViolations_eq (h : SameSiblings keywords others) {m : Matcher} :
    m.keywordViolations judge scope keywords keyword argument value
      = m.keywordViolations judge scope others keyword argument value := by
  unfold keywordViolations
  rw [h.read?_eq]
  simp only [h.assert_eq, h.apply_eq]

lemma exists_object_of_isObject {schema : Json} (h : schema.isObject = true) :
    ∃ keywords, schema = .object keywords := by
  cases schema with
  | object keywords => exact ⟨keywords, rfl⟩
  | _ => simp [Json.isObject] at h

lemma judge_of_not_object {m m' : Matcher} {steps steps' : ℕ} {scope scope' : Scope} {schema value : Json}
    (h : schema.isObject = false) :
    m.judge (steps + 1) scope schema value = m'.judge (steps' + 1) scope' schema value := by
  cases schema with
  | object keywords => simp [Json.isObject] at h
  | bool b => cases b <;> rfl
  | _ => rfl

/-- **A keyword finds wrong what its lead makes it find wrong**: its reference, or the schemas that
it applies. -/
lemma keywordViolations_congr {m m' : Matcher} {judge' : Judge} {scope' : Scope} (halike : m.Alike m')
    (hdraft : scope.draft = scope'.draft) (hlookup : Entries.lookup keyword keywords = some argument)
    (hreference : ∀ text, m.lead scope.draft keywords (keyword, argument) = .reference text →
      m.followReference judge scope text value = m'.followReference judge' scope' text value)
    (hschemas : ∀ patterns schemas,
      m.lead scope.draft keywords (keyword, argument) = .schemas patterns schemas →
      ∀ schema ∈ schemas, ∀ inner, Within keyword value inner →
        judge scope schema inner = judge' scope' schema inner) :
    m.keywordViolations judge scope keywords keyword argument value
      = m'.keywordViolations judge' scope' keywords keyword argument value := by
  unfold keywordViolations
  unfold lead at hreference hschemas
  rw [← halike.registry, ← halike.extensions, ← halike.formats, ← hdraft]
  dsimp only at hreference hschemas
  split
  · rfl
  · rfl
  · rename_i hread
    rw [hread] at hreference hschemas
    dsimp only at hreference hschemas
    split
    · rfl
    · rename_i hshape
      rw [if_neg hshape] at hreference hschemas
      split
      · exact hreference _ rfl
      · rename_i hnot
        refine congrArg₂ _ rfl (apply_congr hdraft hlookup
          (hschemas (patternsUsed keywords keyword argument) _ ?_))
        split
        · exact (hnot _ rfl rfl).elim
        · rfl

lemma name_not_mem_sharedKeywords (extension : Extension) :
    extension.name ∉ Plan.sharedKeywords := by
  cases extension with
  | typeOf => decide
  | presence rule => cases rule <;> decide

lemma read?_of_shared (h : keyword ∈ Plan.sharedKeywords) {registry : Registry}
    {extensions : List Extension} :
    Assertion.read? registry extensions keywords keyword argument = none := by
  have hname : ∀ extension ∈ extensions, ¬ extension.name = keyword := by
    intro extension _ heq
    exact name_not_mem_sharedKeywords extension (heq ▸ h)
  have hfind : (extensions.find? fun extension => extension.name = keyword) = none := by
    simpa using hname
  have hinstanceOf : keyword ≠ "instanceOf" := by
    rintro rfl
    exact absurd h (by decide)
  have htransform : keyword ≠ "transform" := by
    rintro rfl
    exact absurd h (by decide)
  rw [Assertion.read?, if_neg hinstanceOf, if_neg htransform, hfind]
  rfl

lemma lead_of_shared (h : keyword ∈ Plan.sharedKeywords) {m : Matcher} {draft : Draft} :
    m.lead draft keywords (keyword, argument) = .nothing
      ∨ m.lead draft keywords (keyword, argument) = .schemas [] [] := by
  unfold lead
  dsimp only
  rw [read?_of_shared h]
  dsimp only
  split
  · exact Or.inl rfl
  · refine Or.inr ?_
    simp only [Plan.sharedKeywords, List.mem_cons, List.not_mem_nil, or_false] at h
    rcases h with rfl | rfl | rfl <;> rfl

lemma keywordViolations_of_shared (h : keyword ∈ Plan.sharedKeywords) {m : Matcher} :
    m.keywordViolations judge scope keywords keyword argument value = [] := by
  unfold keywordViolations
  rw [read?_of_shared h]
  dsimp only
  split
  · rfl
  · simp only [Plan.sharedKeywords, List.mem_cons, List.not_mem_nil, or_false] at h
    rcases h with rfl | rfl | rfl <;> rfl

end Siblings

end Matcher

end SchemaAlgebra
