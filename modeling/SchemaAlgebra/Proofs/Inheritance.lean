import SchemaAlgebra.Proofs.Properties

/-!
# Inheritance

A schema that extends others has their properties and its own, and requires what any of them requires.

* `Fragment.lookup_gatherProperties` — of several schemas the last one that has a property gives it.
* **`Fragment.extending_inherits`** — what stands under each keyword of the result.
* `Fragment.Normal.merged_eq` — merging leaves alone what was merged before, and what is made of it by
  setting keywords.
* `Fragment.declaring_declaring` — properties that are declared again replace those before.
* **`Fragment.extending_extending`** — a chain of extensions is one extension.

A keyword that is `null` is not inherited from the schema itself (`Fragment.extending_loses`); what
becomes of a property that is declared as `true` or `false` where it counts is left open here.
-/

namespace SchemaAlgebra

/-- What a search finds is found without the answers that do not pass, if it passes itself. -/
lemma findSome?_filter {α β : Type} {g : α → Option β} {p : β → Bool} {items : List α}
    (h : ∀ b, items.findSome? g = some b → p b = true) :
    (items.findSome? fun a => (g a).filter p) = items.findSome? g := by
  induction items with
  | nil => rfl
  | cons item items ih =>
    rw [List.findSome?_cons] at h ⊢
    rw [List.findSome?_cons]
    cases hitem : g item with
    | none => exact ih (by simpa [hitem] using h)
    | some b =>
      rw [hitem] at h
      rw [Option.filter_some, if_pos (h b rfl)]

namespace Fragment

variable {f child : Fragment} {name : String} {properties : List (String × Fragment)}

/-! ## Gathered properties -/

lemma lookup_putNamed (other : String) (entries : List (String × Fragment)) :
    Entries.lookup name (putNamed other child entries)
      = if other = name then some child else Entries.lookup name entries := by
  induction entries with
  | nil => simp [putNamed, Entries.lookup]
  | cons entry entries ih =>
    obtain ⟨first, f⟩ := entry
    unfold putNamed
    by_cases hfirst : first = other
    · subst hfirst
      by_cases hname : first = name <;> simp [Entries.lookup, hname]
    · rw [if_neg hfirst, Entries.lookup, ih, Entries.lookup]
      by_cases hname : first = name
      · rw [if_pos hname, if_neg fun hother => hfirst (hname.trans hother.symm), if_pos hname]
      · rw [if_neg hname, if_neg hname]

/-- Gathered is what the last schema that has a property says of it. -/
lemma lookup_gatherProperties (sources : List Fragment) (name : String) :
    Entries.lookup name (gatherProperties sources)
      = sources.reverse.findSome? fun source => Entries.lookup name (source.children "properties") := by
  have hfold : ∀ declared gathered : List (String × Fragment), Entries.lookup name
      (declared.foldl (fun gathered child => putNamed child.1 child.2 gathered) gathered)
        = (Entries.lookup name declared.reverse).or (Entries.lookup name gathered) := by
    intro declared
    induction declared with
    | nil => exact fun gathered => rfl
    | cons first declared ih =>
      intro gathered
      obtain ⟨other, child⟩ := first
      rw [List.foldl_cons, ih, lookup_putNamed, List.reverse_cons, Entries.lookup_append,
        Option.or_assoc]
      by_cases hother : other = name
      · simp [hother]
      · simp [hother, Entries.lookup_cons_of_ne hother]
  rw [gatherProperties, hfold, Entries.lookup_nil, Option.or_none, List.reverse_flatMap]
  induction sources.reverse with
  | nil => rfl
  | cons source sources ih =>
    rw [List.flatMap_cons, Entries.lookup_append, Function.comp_apply, lookup_children_reverse, ih,
      List.findSome?_cons]
    cases Entries.lookup name (source.children "properties") <;> rfl

/-- Later schemas are asked first. -/
lemma lookup_gatherProperties_append (first second : List Fragment) (name : String) :
    Entries.lookup name (gatherProperties (first ++ second))
      = (Entries.lookup name (gatherProperties second)).or
        (Entries.lookup name (gatherProperties first)) := by
  simp only [lookup_gatherProperties, List.reverse_append, List.findSome?_append]

lemma wellPlaced_gatherProperties (sources : List Fragment) :
    ∀ property ∈ gatherProperties sources, property.2.WellPlaced := by
  intro property hproperty
  obtain ⟨source, -, hchild⟩ := (gatherProperties_spec sources).2 property hproperty
  exact wellPlaced_of_mem_children hchild

/-! ## Schemas that merging leaves alone -/

/-- A schema that has nothing for merging to drop. -/
structure Normal (f : Fragment) : Prop where
  /-- Keywords are in order. -/
  sorted : f.keywords.Sorted
  /-- None of them is `null`. -/
  noNull : ∀ entry ∈ f.keywords, entry.2.isNull = false
  /-- Every record lies beneath a keyword. -/
  beneath : ∀ entry ∈ f.records.entries, ∃ keyword ∈ Entries.keys f.keywords,
    Pointer.hasPrefix entry.1 (keywordPointer keyword) = true

/-- Merging one fragment keeps what lies beneath the keywords that are left. -/
lemma lookup_records_merged (f : Fragment) (pointer : Pointer) :
    (merged [f]).records.lookup pointer
      = if ∃ keyword ∈ Entries.keys (Entries.trim f.keywords),
          Pointer.hasPrefix pointer (keywordPointer keyword) = true then f.records.lookup pointer
        else none :=
  lookup_foldl_takeRecords f.records _ .empty pointer

lemma Normal.merged_eq (h : f.Normal) : merged [f] = f := by
  have htrim : Entries.trim f.keywords = f.keywords :=
    List.filter_eq_self.2 fun entry hentry => by rw [h.noNull entry hentry]; rfl
  have hkeywords : (merged [f]).keywords = f.keywords := by
    have hmerge : (merged [f]).keywords = Entries.ofPairs (Entries.trim f.keywords) := rfl
    rw [hmerge, htrim]
    refine Entries.eq_of_lookup_eq (Entries.sorted_ofPairs _) h.sorted fun keyword => ?_
    rw [Entries.lookup_ofPairs, Entries.lookup_reverse (Entries.nodup_of_sorted h.sorted)]
  refine congrArg₂ Fragment.mk hkeywords (Table.ext_lookup fun pointer => ?_)
  refine (lookup_records_merged f pointer).trans ?_
  rw [htrim, ite_eq_left_iff]
  intro hapart
  refine (Entries.lookup_eq_none_of_forall fun entry hentry heq => hapart ?_).symm
  exact heq ▸ h.beneath entry hentry

lemma normal_merged (f : Fragment) : (merged [f]).Normal where
  sorted := Entries.sorted_ofPairs _
  noNull := fun entry hentry => by
    rcases Entries.mem_enter hentry with hentry | hentry
    · simpa using (List.mem_filter.1 hentry).2
    · exact absurd hentry List.not_mem_nil
  beneath := fun entry hentry => by
    have hfound := (Entries.lookup_eq_some_iff (Entries.nodup_of_sorted (merged [f]).records.sorted)).2
      hentry
    have hlookup := (lookup_records_merged f entry.1).symm.trans hfound
    split at hlookup
    · next hbeneath =>
      obtain ⟨keyword, hkeyword, hunder⟩ := hbeneath
      exact ⟨keyword, Entries.mem_keys_ofPairs.2 hkeyword, hunder⟩
    · simp at hlookup

lemma Normal.withKeyword (h : f.Normal) (keyword : String) {value : Json} (hvalue : value.isNull = false) :
    (f.withKeyword keyword value).Normal where
  sorted := h.sorted.insert keyword value
  noNull := fun entry hentry => by
    rcases Entries.mem_insert hentry with rfl | hentry
    · exact hvalue
    · exact h.noNull entry hentry
  beneath := fun entry hentry => by
    obtain ⟨other, hother, hunder⟩ := h.beneath entry (List.mem_filter.1 hentry).1
    exact ⟨other, Entries.mem_keys_insert.2 (Or.inr hother), hunder⟩

lemma Normal.withoutKeyword (h : f.Normal) (keyword : String) : (f.withoutKeyword keyword).Normal where
  sorted := h.sorted.filter _
  noNull := fun entry hentry => h.noNull entry (List.mem_filter.1 hentry).1
  beneath := fun entry hentry => by
    obtain ⟨hbefore, hapart⟩ := List.mem_filter.1 hentry
    obtain ⟨other, hother, hunder⟩ := h.beneath entry hbefore
    refine ⟨other, ?_, hunder⟩
    -- a record beneath the keyword would be gone with it
    have hne : other ≠ keyword := by
      rintro rfl
      simp [hunder] at hapart
    rw [Entries.mem_keys_iff] at hother ⊢
    rwa [lookup_withoutKeyword_keywords, if_neg hne]

lemma Normal.withRequired (h : f.Normal) (required : List Json) : (f.withRequired required).Normal := by
  cases required with
  | nil => exact h.withoutKeyword "required"
  | cons name names => exact h.withKeyword "required" rfl

lemma Normal.withChildren (h : f.Normal) (keyword : String)
    (hplaced : ∀ property ∈ properties, property.2.WellPlaced) :
    (f.withChildren keyword properties).Normal where
  sorted := h.sorted.insert keyword _
  noNull := fun entry hentry => by
    rcases Entries.mem_insert hentry with rfl | hentry
    · rfl
    · exact h.noNull entry hentry
  beneath := fun entry hentry => by
    rcases mem_adoptAll hentry with ⟨property, hproperty, original, horiginal, heq⟩ | hentry
    · refine ⟨keyword, Entries.mem_keys_insert.2 (Or.inl rfl), ?_⟩
      have hrooted := hplaced property hproperty original horiginal
      exact heq ▸ hasPrefix_beneath keyword [property.1] hrooted
    · obtain ⟨other, hother, hunder⟩ := h.beneath entry (List.mem_filter.1 hentry).1
      exact ⟨other, Entries.mem_keys_insert.2 (Or.inr hother), hunder⟩

/-! ## Declaring properties again -/

lemma extending_eq (child : Fragment) (bases : List Fragment) : child.extending bases
    = (merged [child]).declaring (gatherProperties (bases ++ [child]))
      (Json.dedupe ((child :: bases.reverse).flatMap requiredSeq)) := by
  rw [extending, declaring, Json.concat, List.flatMap_map]
  rfl

lemma sorted_declaring (h : f.keywords.Sorted) (properties : List (String × Fragment))
    (required : List Json) : (f.declaring properties required).keywords.Sorted := by
  have hchildren : (f.withChildren "properties" properties).keywords.Sorted := h.insert _ _
  cases required with
  | nil => exact hchildren.filter _
  | cons name names => exact hchildren.insert _ _

lemma records_declaring (f : Fragment) (properties : List (String × Fragment)) (required : List Json) :
    (f.declaring properties required).records
      = clearUnder (adoptAll (keywordPointer "properties")
          (clearUnder f.records (keywordPointer "properties")) properties) (keywordPointer "required") := by
  cases required <;> rfl

/-- What is declared again replaces what was declared. -/
lemma declaring_declaring (hsorted : f.keywords.Sorted) (properties others : List (String × Fragment))
    (required more : List Json) :
    (f.declaring properties required).declaring others more = f.declaring others more := by
  have hkeywords : ((f.declaring properties required).declaring others more).keywords
      = (f.declaring others more).keywords := by
    refine Entries.eq_of_lookup_eq (sorted_declaring (sorted_declaring hsorted _ _) _ _)
      (sorted_declaring hsorted _ _) fun keyword => ?_
    change get? _ keyword = get? _ keyword
    by_cases hrequired : keyword = "required"
    · subst hrequired
      rw [get?_declaring_required, get?_declaring_required]
    · rw [get?_declaring hrequired, get?_declaring hrequired]
      by_cases hproperties : "properties" = keyword
      · subst hproperties
        rw [get?_withChildren, get?_withChildren]
      · rw [get?_withChildren_of_ne hproperties, get?_withChildren_of_ne hproperties,
          get?_declaring hrequired, get?_withChildren_of_ne hproperties]
  have hrecords : ((f.declaring properties required).declaring others more).records
      = (f.declaring others more).records := by
    -- what was adopted before lies beneath the keyword that is replaced
    rw [records_declaring, records_declaring, records_declaring, clearUnder_comm, clearUnder_adoptAll,
      clearUnder_clearUnder, clearUnder_adoptAll_clearUnder]
  exact congrArg₂ Fragment.mk hkeywords hrecords

/-! ## What is inherited -/

lemma property?_extending (child : Fragment) (bases : List Fragment) (name : String) :
    (child.extending bases).property? name
      = (child :: bases.reverse).findSome? fun source => (source.property? name).filter Json.isObject := by
  have hnodup := (gatherProperties_spec (bases ++ [child])).1
  rw [extending_eq, property?_declaring, Entries.lookup_reverse hnodup, lookup_gatherProperties,
    List.reverse_append, List.reverse_singleton, List.singleton_append, List.map_findSome?]
  exact congrArg (List.findSome? · _) (funext fun source => json_property source name)

/-- **Inheritance.**  A property is the child's if it declares it, or else that of the last base to
declare it, as long as that declaration is an object; required are the names that any of them requires, each
once, those of the child first and then from the last base to the first; and the other keywords are those
of the child that are not `null`. -/
theorem extending_inherits (hsorted : child.keywords.Sorted) (bases : List Fragment) :
    (∃ properties, (child.extending bases).get? "properties" = some (.object properties))
      ∧ (∀ name, (∀ schema, ((child :: bases.reverse).findSome? fun source => source.property? name)
            = some schema → schema.isObject = true) →
          (child.extending bases).property? name
            = (child :: bases.reverse).findSome? fun source => source.property? name)
      ∧ (child.extending bases).get? "required"
          = (Json.array (((child :: bases.reverse).flatMap requiredSeq).eraseDupsBy
              fun later earlier => earlier.same later)).nonEmpty?
      ∧ ∀ keyword, keyword ≠ "properties" → keyword ≠ "required" →
          (child.extending bases).get? keyword = (child.get? keyword).filter fun value => !value.isNull := by
  have hproperties : ∃ properties,
      (child.extending bases).get? "properties" = some (.object properties) := by
    rw [extending_eq, get?_declaring (by decide), get?_withChildren]
    exact ⟨_, rfl⟩
  refine ⟨hproperties, fun name hobject => ?_, ?_, fun keyword hkeyword hother => ?_⟩
  · rw [property?_extending, findSome?_filter hobject]
  · rw [extending_eq, get?_declaring_required, Json.dedupe, dedupeBy_eq_eraseDupsBy]
  · rw [extending_eq, get?_declaring hother, get?_withChildren_of_ne hkeyword.symm]
    exact lookup_merged_keywords hsorted keyword

/-- What is stored has a key, and may have a note. -/
def stored : Fragment :=
  openObject [("key", ofType (.name "integer")), ("note", (ofType (.name "integer")).optional)]

/-- What is signed has a key as well. -/
def signed : Fragment :=
  openObject [("by", ofType (.name "string")), ("key", ofType (.name "string"))]

/-- A remark has a note. -/
def remark : Fragment :=
  openObject [("note", ofType (.name "string"))]

/-- A remark that is stored and signed has the key of what is signed, and its own note. -/
theorem remark_inherits :
    (remark.extending [stored, signed]).property? "key" = some (.object [("type", .string "string")])
      ∧ (remark.extending [stored, signed]).property? "note"
        = some (.object [("type", .string "string")])
      ∧ (remark.extending [stored, signed]).get? "required"
        = some (.array [.string "note", .string "by", .string "key"])
      ∧ (remark.extending [stored, signed]).get? "type" = some (.string "object") := by
  have hsorted : remark.keywords.Sorted := by
    unfold Entries.Sorted
    decide +kernel
  obtain ⟨-, hproperty, hrequired, hothers⟩ := extending_inherits hsorted [stored, signed]
  refine ⟨(hproperty "key" (by decide +kernel)).trans (by decide +kernel),
    (hproperty "note" (by decide +kernel)).trans (by decide +kernel),
    hrequired.trans (by decide +kernel),
    (hothers "type" (by decide) (by decide)).trans (by decide +kernel)⟩

/-- A property with this schema. -/
def withProperty (schema : Json) : Fragment where
  keywords := [("properties", .object [("a", schema)])]

/-- A `null` is not kept, and a property that is `false` gives way to that of a base. -/
theorem extending_loses :
    ((defaultNull (.object [])).get? "default" = some .null
      ∧ ((defaultNull (.object [])).extending []).get? "default" = none)
    ∧ (withProperty (.bool false)).property? "a" = some (.bool false)
      ∧ ((withProperty (.bool false)).extending [withProperty (.object [])]).property? "a"
        = some (.object []) := by
  decide +kernel

/-! ## Chains -/

lemma normal_extending (child : Fragment) (bases : List Fragment) : (child.extending bases).Normal := by
  rw [extending_eq]
  exact ((normal_merged child).withChildren "properties" (wellPlaced_gatherProperties _)).withRequired _

/-- What a schema hands on are the properties it has gathered. -/
lemma lookup_children_extending (child : Fragment) (bases : List Fragment) (name : String) :
    Entries.lookup name ((child.extending bases).children "properties")
      = (Entries.lookup name (gatherProperties (bases ++ [child]))).map filled := by
  rw [extending_eq, lookup_children ((get?_declaring (by decide) _).trans (get?_withChildren _ _ _)),
    at?_declaring, at?_withChildren _ _ (gatherProperties_spec _).1 (wellPlaced_gatherProperties _)]

lemma requiredSeq_extending (child : Fragment) (bases : List Fragment) :
    (child.extending bases).requiredSeq = Json.dedupe ((child :: bases.reverse).flatMap requiredSeq) := by
  rw [extending_eq, declaring, requiredSeq_withRequired]

/-- Repetitions that the inner extension has dropped would be dropped by the outer one. -/
lemma required_chain (child : Fragment) (first second : List Fragment) :
    Json.dedupe ((child.extending second :: first.reverse).flatMap requiredSeq)
      = Json.dedupe ((child :: (first ++ second).reverse).flatMap requiredSeq) := by
  rw [List.flatMap_cons, requiredSeq_extending, Json.dedupe, Json.dedupe, dedupeBy_dedupeBy_append,
    List.reverse_append, ← List.cons_append, List.flatMap_append, Json.dedupe]

/-- What the inner extension has gathered comes through the outer one, less its empty records. -/
lemma gathered_chain (child : Fragment) (first second : List Fragment) (name : String) :
    (Entries.lookup name (gatherProperties (first ++ [child.extending second]))).map filled
      = (Entries.lookup name (gatherProperties (first ++ second ++ [child]))).map filled := by
  have hown : Entries.lookup name (gatherProperties [child.extending second])
      = (Entries.lookup name (gatherProperties (second ++ [child]))).map filled := by
    rw [← lookup_children_extending, lookup_gatherProperties]
    simp
  rw [List.append_assoc, lookup_gatherProperties_append, lookup_gatherProperties_append first, hown]
  cases Entries.lookup name (gatherProperties (second ++ [child])) with
  | none => rfl
  | some property => exact congrArg some (filled_filled property)

/-- **Chains of extensions** are single extensions.  Extending what extends others makes the schema, with
the same records and the same order of what is required, that extends all the bases at once, those that
come later in the chain listed before the others. -/
theorem extending_extending (child : Fragment) (first second : List Fragment) :
    (child.extending second).extending first = child.extending (first ++ second) := by
  calc (child.extending second).extending first
      = (child.extending second).declaring (gatherProperties (first ++ [child.extending second]))
          (Json.dedupe ((child.extending second :: first.reverse).flatMap requiredSeq)) := by
        rw [extending_eq _ first, (normal_extending child second).merged_eq]
    _ = (merged [child]).declaring (gatherProperties (first ++ [child.extending second]))
          (Json.dedupe ((child :: (first ++ second).reverse).flatMap requiredSeq)) := by
        rw [required_chain]
        exact (congrArg (declaring · _ _) (extending_eq child second)).trans
          (declaring_declaring (normal_merged child).sorted _ _ _ _)
    _ = (merged [child]).declaring (gatherProperties (first ++ second ++ [child]))
          (Json.dedupe ((child :: (first ++ second).reverse).flatMap requiredSeq)) :=
        congrArg (withRequired · _) (withChildren_congr _ _ (gatherProperties_spec _).1
          (gatherProperties_spec _).1 (wellPlaced_gatherProperties _) (wellPlaced_gatherProperties _)
          (gathered_chain child first second))
    _ = child.extending (first ++ second) := (extending_eq child (first ++ second)).symm

end Fragment

end SchemaAlgebra
