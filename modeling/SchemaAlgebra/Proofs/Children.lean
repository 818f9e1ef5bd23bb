import SchemaAlgebra.Proofs.Rework

/-!
# Children taken out and put back

The children of a schema under a keyword are named.  Of several children that are put in under one name
the last one stands there, and it finds the records of all of them beneath it; of children under distinct
names each is taken out again as it was put in, less its empty records.

* `Fragment.lookup_children` — a child is what is taken out under its name.
* `Fragment.lookup_at?_withChildren` — what is taken out after several children were put in.
* `Fragment.at?_withChildren` — and if their names are distinct.
* `Fragment.withChildren_congr` — only what is found under each name matters.
* `Fragment.at?_withKeyword`, `Fragment.at?_withRequired` — other keywords do not matter.
-/

namespace SchemaAlgebra

lemma Pointer.join_ne_empty (token : String) (tokens : List String) :
    Pointer.join "" (token :: tokens) ≠ "" := fun hempty =>
  List.cons_ne_nil token tokens (Pointer.join_root_injective hempty)

namespace Entries

variable {α : Type} {key : String} {entries : Entries α}

lemma mem_keys_iff : key ∈ keys entries ↔ (lookup key entries).isSome = true := by
  rw [← contains_eq_isSome, contains, List.any_eq_true, keys, List.mem_map]
  simp only [decide_eq_true_eq]

/-- Values that are found under some names, listed under those names. -/
lemma lookup_filterMap (names : List String) (value? : String → Option α) (key : String) :
    lookup key (names.filterMap fun name => (value? name).map fun value => (name, value))
      = if key ∈ names then value? key else none := by
  induction names with
  | nil => rfl
  | cons name names ih =>
    rw [List.filterMap_cons]
    by_cases hname : name = key
    · subst hname
      cases hvalue : value? name with
      | none => simp [ih, hvalue]
      | some value => simp
    · have hmem : key ∈ name :: names ↔ key ∈ names := by simp [Ne.symm hname]
      cases hvalue : value? name <;> simp [ih, hmem, lookup_cons_of_ne hname]

/-- Entries under distinct keys are found as in the reverse. -/
lemma lookup_ofPairs (pairs : List (String × α)) (key : String) :
    lookup key (ofPairs pairs) = lookup key pairs.reverse := by
  rw [ofPairs, lookup_enter_reverse, lookup_nil, Option.or_none]

lemma mem_keys_ofPairs {pairs : List (String × α)} :
    key ∈ keys (ofPairs pairs) ↔ key ∈ keys pairs := by
  rw [mem_keys_iff, lookup_ofPairs, ← mem_keys_iff, keys, List.map_reverse, List.mem_reverse, keys]

lemma mem_keys_insert {other : String} {a : α} :
    key ∈ keys (insert other a entries) ↔ key = other ∨ key ∈ keys entries := by
  rw [mem_keys_iff, mem_keys_iff]
  by_cases hkey : other = key
  · simp [hkey]
  · rw [lookup_insert_of_ne hkey, or_iff_right (Ne.symm hkey)]

end Entries

namespace Fragment

variable {f g : Fragment} {keyword name : String} {members : Entries Json}
  {children others : List (String × Fragment)}

/-! ## Beneath a keyword -/

lemma keywordPointer_ne_empty (keyword : String) : keywordPointer keyword ≠ "" :=
  Pointer.join_ne_empty keyword []

/-- A pointer lies beneath one keyword only. -/
lemma keyword_eq_of_hasPrefix {other : String} {pointer : Pointer}
    (h : Pointer.hasPrefix pointer (keywordPointer keyword) = true)
    (hother : Pointer.hasPrefix pointer (keywordPointer other) = true) : keyword = other := by
  have hsame : Pointer.join "" ([] ++ [keyword]) ++ Pointer.dropPrefix pointer (keywordPointer keyword)
      = Pointer.join "" ([] ++ [other]) ++ Pointer.dropPrefix pointer (keywordPointer other) :=
    (Pointer.eq_append_dropPrefix h).symm.trans (Pointer.eq_append_dropPrefix hother)
  exact Pointer.token_eq_of_append_eq (Pointer.rooted_dropPrefix h (keywordPointer_ne_empty keyword))
    (Pointer.rooted_dropPrefix hother (keywordPointer_ne_empty other)) hsame

lemma hasPrefix_beneath (keyword : String) (rest : List String) {pointer : Pointer}
    (hpointer : pointer.Rooted) :
    Pointer.hasPrefix (Pointer.join "" (keyword :: rest) ++ pointer) (keywordPointer keyword) = true := by
  rw [show keyword :: rest = [keyword] ++ rest from rfl, Pointer.join_root_append, String.append_assoc]
  exact Pointer.hasPrefix_append ((Pointer.rooted_join rest).append hpointer) _

/-- What is taken out from beneath a keyword depends on the argument and the records there. -/
lemma at?_congr (hvalue : g.get? keyword = f.get? keyword)
    (hrecords : ∀ pointer, Pointer.hasPrefix pointer (keywordPointer keyword) = true →
      g.records.lookup pointer = f.records.lookup pointer) (rest : List String) :
    g.at? (keyword :: rest) = f.at? (keyword :: rest) := by
  have hkeywords : g.keywordsAt? (keyword :: rest) = f.keywordsAt? (keyword :: rest) := by
    simp only [keywordsAt?, lookup?, hvalue, List.isEmpty_cons, Bool.false_eq_true, if_false]
  have hbeneath : g.recordsBeneath (keyword :: rest) = f.recordsBeneath (keyword :: rest) := by
    refine Table.ext_lookup fun pointer => ?_
    rw [lookup_recordsBeneath, lookup_recordsBeneath]
    split
    · next hpointer =>
      refine hrecords _ (hasPrefix_beneath keyword rest ?_)
      exact Pointer.rooted_of_hasPrefix_append (Pointer.join_ne_empty keyword rest) hpointer
    · rfl
  rw [at?, at?, hkeywords, hbeneath]

lemma lookup_clearUnder_of_ne {other : String} (h : other ≠ keyword) (records : Table Metadata)
    {pointer : Pointer} (hpointer : Pointer.hasPrefix pointer (keywordPointer keyword) = true) :
    (clearUnder records (keywordPointer other)).lookup pointer = records.lookup pointer := by
  rw [lookup_clearUnder, if_neg]
  exact fun hother => h (keyword_eq_of_hasPrefix hother hpointer)

lemma at?_withKeyword {other : String} (h : other ≠ keyword) (value : Json) (rest : List String) :
    (f.withKeyword other value).at? (keyword :: rest) = f.at? (keyword :: rest) :=
  have hvalue : (f.withKeyword other value).get? keyword = f.get? keyword :=
    Entries.lookup_insert_of_ne h value f.keywords
  at?_congr hvalue (fun _ => lookup_clearUnder_of_ne h f.records) rest

lemma at?_withoutKeyword {other : String} (h : other ≠ keyword) (rest : List String) :
    (f.withoutKeyword other).at? (keyword :: rest) = f.at? (keyword :: rest) :=
  have hvalue : (f.withoutKeyword other).get? keyword = f.get? keyword :=
    (lookup_withoutKeyword_keywords other).trans (if_neg h.symm)
  at?_congr hvalue (fun _ => lookup_clearUnder_of_ne h f.records) rest

lemma at?_withRequired (h : "required" ≠ keyword) (required : List Json) (rest : List String) :
    (f.withRequired required).at? (keyword :: rest) = f.at? (keyword :: rest) := by
  rcases f.withRequired_eq required with ⟨value, heq⟩ | heq
  · exact heq ▸ at?_withKeyword h value rest
  · exact heq ▸ at?_withoutKeyword h rest

/-! ## Children of a keyword -/

lemma keywordsAt?_member (hmembers : f.get? keyword = some (.object members)) (name : String) :
    f.keywordsAt? [keyword, name] = (Entries.lookup name members).bind Json.members? := by
  have hlookup : f.lookup? [keyword, name] = Entries.lookup name members := by
    simp only [lookup?, hmembers, bind, Option.bind_some, Json.follow?_cons, Json.step?,
      Json.follow?_nil]
    exact Option.bind_fun_some _
  rw [keywordsAt?, hlookup]
  cases Entries.lookup name members with
  | none => rfl
  | some value => cases value <;> rfl

lemma children_eq (hmembers : f.get? keyword = some (.object members)) :
    f.children keyword = (Entries.keys members).filterMap fun name =>
      (f.at? [keyword, name]).map fun child => (name, child) := by
  rw [children, hmembers]

lemma children_of_not_object (h : ∀ members, f.get? keyword ≠ some (.object members)) :
    f.children keyword = [] := by
  unfold children
  split
  · next members hmembers => exact absurd hmembers (h members)
  · rfl

/-- A child is what is taken out under its name. -/
lemma lookup_children (hmembers : f.get? keyword = some (.object members)) (name : String) :
    Entries.lookup name (f.children keyword) = f.at? [keyword, name] := by
  rw [children_eq hmembers, Entries.lookup_filterMap]
  split
  · rfl
  · next hname =>
    have hnone : Entries.lookup name members = none := by
      simpa [Entries.mem_keys_iff] using hname
    rw [at?, keywordsAt?_member hmembers, hnone]
    rfl

/-- Whatever stands under a name twice is the same. -/
lemma lookup_children_reverse (f : Fragment) (keyword name : String) :
    Entries.lookup name (f.children keyword).reverse = Entries.lookup name (f.children keyword) := by
  by_cases hobject : ∃ members, f.get? keyword = some (.object members)
  · obtain ⟨members, hmembers⟩ := hobject
    rw [children_eq hmembers, ← List.filterMap_reverse, Entries.lookup_filterMap,
      Entries.lookup_filterMap]
    simp only [List.mem_reverse]
  · rw [children_of_not_object fun members hmembers => hobject ⟨members, hmembers⟩]
    rfl

lemma wellPlaced_of_mem_children {child : String × Fragment} (h : child ∈ f.children keyword) :
    child.2.WellPlaced :=
  wellPlaced_at? (mem_children h).1 (List.cons_ne_nil _ _)

/-- The document of a child is the schema under its name, if that is an object. -/
lemma json_child (f : Fragment) (keyword name : String) :
    (Entries.lookup name (f.children keyword)).map json
      = ((f.get? keyword).bind (Json.member? name)).filter Json.isObject := by
  by_cases hobject : ∃ members, f.get? keyword = some (.object members)
  · obtain ⟨members, hmembers⟩ := hobject
    rw [lookup_children hmembers, at?, keywordsAt?_member hmembers, hmembers, Option.map_map,
      Option.bind_some, Json.member?]
    cases Entries.lookup name members with
    | none => rfl
    | some value => cases value <;> rfl
  · rw [children_of_not_object fun members hmembers => hobject ⟨members, hmembers⟩]
    cases hvalue : f.get? keyword with
    | none => rfl
    | some value =>
      cases value with
      | object members => exact absurd ⟨members, hvalue⟩ hobject
      | _ => rfl

/-! ## Children put back -/

lemma get?_withChildren (f : Fragment) (keyword : String) (children : List (String × Fragment)) :
    (f.withChildren keyword children).get? keyword = some (.object
      (Entries.ofPairs (children.map fun child => (child.1, child.2.json)))) :=
  Entries.lookup_insert_self _ _ _

/-- The document of a child that was put in is that of the last one under its name. -/
lemma lookup_documents (children : List (String × Fragment)) (name : String) :
    Entries.lookup name (Entries.ofPairs (children.map fun child => (child.1, child.2.json)))
      = (Entries.lookup name children.reverse).map json := by
  rw [Entries.lookup_ofPairs, ← List.map_reverse, Entries.lookup_map_value]

lemma keywordsAt?_withChildren (f : Fragment) (keyword : String) (children : List (String × Fragment))
    (name : String) : (f.withChildren keyword children).keywordsAt? [keyword, name]
      = (Entries.lookup name children.reverse).map keywords := by
  rw [keywordsAt?_member (get?_withChildren f keyword children), lookup_documents]
  cases Entries.lookup name children.reverse <;> rfl

/-- Of several children under one name the last one stands there, with the records of all of them. -/
lemma lookup_at?_withChildren (f : Fragment) (keyword : String)
    (hplaced : ∀ child ∈ children, child.2.WellPlaced) {last : Fragment}
    (hlast : Entries.lookup name children.reverse = some last) :
    ∃ child, (f.withChildren keyword children).at? [keyword, name] = some child
      ∧ child.keywords = last.keywords
      ∧ ∀ pointer, child.records.lookup pointer = adoptedBeneath? children name pointer := by
  refine ⟨⟨last.keywords, (f.withChildren keyword children).recordsBeneath [keyword, name]⟩, ?_, rfl,
    ?_⟩
  · rw [at?, keywordsAt?_withChildren, hlast, Option.map_some, Option.map_some]
  · exact lookup_recordsBeneath_adoptAll hplaced (congrArg records (withChildren_eq f keyword children))
      name

/-- Of children under distinct names the filled records of each are found. -/
lemma adoptedBeneath?_of_nodup (hnodup : (children.map Prod.fst).Nodup) (name : String)
    (pointer : Pointer) : adoptedBeneath? children name pointer
      = ((Entries.lookup name children).map filled).bind fun child => child.recordAt? pointer := by
  cases hchild : Entries.lookup name children with
  | none =>
    refine adoptedBeneath?_eq_none (fun child hmem heq => ?_) pointer
    subst heq
    have hsome := (Entries.lookup_eq_some_iff hnodup).2 hmem
    rw [hchild] at hsome
    simp at hsome
  | some child =>
    rw [adoptedBeneath?_of_mem hnodup (Entries.mem_of_lookup hchild)]
    exact (lookup_filledRecords child.records pointer).symm

/-- **Children put in** under distinct names are taken out again without their empty records. -/
lemma at?_withChildren (f : Fragment) (keyword : String) (hnodup : (children.map Prod.fst).Nodup)
    (hplaced : ∀ child ∈ children, child.2.WellPlaced) (name : String) :
    (f.withChildren keyword children).at? [keyword, name]
      = (Entries.lookup name children).map filled := by
  cases hchild : Entries.lookup name children with
  | none => rw [at?, keywordsAt?_withChildren, Entries.lookup_reverse hnodup, hchild]; rfl
  | some child =>
    obtain ⟨taken, htaken, hkeywords, hrecords⟩ := lookup_at?_withChildren f keyword hplaced
      ((Entries.lookup_reverse hnodup name).trans hchild)
    rw [htaken, Option.map_some]
    refine congrArg some (congrArg₂ Fragment.mk hkeywords (Table.ext_lookup fun pointer => ?_))
    rw [hrecords, adoptedBeneath?_of_nodup hnodup, hchild]
    rfl

/-- Children that are found alike, empty records apart, make the same schema. -/
lemma withChildren_congr (f : Fragment) (keyword : String) (hchildren : (children.map Prod.fst).Nodup)
    (hothers : (others.map Prod.fst).Nodup) (hplaced : ∀ child ∈ children, child.2.WellPlaced)
    (hplaced' : ∀ child ∈ others, child.2.WellPlaced)
    (h : ∀ name, (Entries.lookup name children).map filled = (Entries.lookup name others).map filled) :
    f.withChildren keyword children = f.withChildren keyword others := by
  have hdocument : Json.ofMembers (children.map fun child => (child.1, child.2.json))
      = Json.ofMembers (others.map fun child => (child.1, child.2.json)) := by
    refine congrArg Json.object (Entries.eq_of_lookup_eq (Entries.sorted_ofPairs _)
      (Entries.sorted_ofPairs _) fun name => ?_)
    have hjson := congrArg (Option.map json) (h name)
    rw [Option.map_map, Option.map_map] at hjson
    rw [lookup_documents, lookup_documents, Entries.lookup_reverse hchildren,
      Entries.lookup_reverse hothers]
    exact hjson
  rw [withChildren_eq, withChildren_eq, hdocument]
  refine congrArg (Fragment.mk _) (Table.ext_lookup fun pointer => ?_)
  -- texts beneath the keyword that no name is written as are apart from all children
  by_cases hbeneath : ∃ name more, Pointer.Rooted more
      ∧ Pointer.join "" ([keyword] ++ [name]) ++ more = pointer
  · obtain ⟨name, more, hmore, rfl⟩ := hbeneath
    rw [lookup_adoptAll_beneath [keyword] hplaced hmore, lookup_adoptAll_beneath [keyword] hplaced' hmore,
      adoptedBeneath?_of_nodup hchildren, adoptedBeneath?_of_nodup hothers, h]
  · have hapart : ∀ name more, Pointer.Rooted more →
        Pointer.join "" ([keyword] ++ [name]) ++ more ≠ pointer :=
      fun name more hmore heq => hbeneath ⟨name, more, hmore, heq⟩
    rw [lookup_adoptAll_apart hplaced hapart, lookup_adoptAll_apart hplaced' hapart]

end Fragment

end SchemaAlgebra
