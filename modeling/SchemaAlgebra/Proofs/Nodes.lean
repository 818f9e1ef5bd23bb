import SchemaAlgebra.Plan.Outline
import SchemaAlgebra.Proofs.Tokens
import SchemaAlgebra.Proofs.Walks

/-!
# The nodes of a document

A node leads to the schemas that stand under those of its keywords under which a value is handed on, and to
the one that its reference names, if that leads somewhere in the document (`Outline.Visits`).

The nodes of a document are the root and all that it leads to, however the references go
(`Outline.mem_nodes_iff`): each lies on a way down from the root or from the target of a reference,
and these ways are closed under the steps from a node to those it leads to.

* `Outline.visits_of_mem_children`, `Outline.mem_children_of_visits` — what an outline lists is what a node
  leads to; what is said of children elsewhere is read off the cases of `Outline.Visits`.
* `Outline.mem_edges_iff` — the same of the node at a pointer.
-/

namespace SchemaAlgebra

namespace Json

/-! ## Ways down -/

lemma nil_mem_paths (value : Json) : [] ∈ value.paths := by
  cases value <;> simp [paths]

lemma cons_mem_memberPaths {key : String} {value : Json} {members : Entries Json}
    {path : List String} (h : (key, value) ∈ members) (hpath : path ∈ value.paths) :
    key :: path ∈ memberPaths members := by
  induction members with
  | nil => exact absurd h List.not_mem_nil
  | cons member rest ih =>
    obtain ⟨k, v⟩ := member
    simp only [memberPaths, List.mem_append, List.mem_map]
    rcases List.mem_cons.1 h with h | h
    · obtain ⟨rfl, rfl⟩ := Prod.mk.inj h
      exact Or.inl ⟨path, hpath, rfl⟩
    · exact Or.inr (ih h)

lemma cons_mem_itemPaths {index n : ℕ} {value : Json} {items : List Json} {path : List String}
    (h : items[index]? = some value) (hpath : path ∈ value.paths) :
    Pointer.indexToken (n + index) :: path ∈ itemPaths n items := by
  induction items generalizing index n with
  | nil => simp at h
  | cons item rest ih =>
    simp only [itemPaths, List.mem_append, List.mem_map]
    cases index with
    | zero =>
      have hitem : item = value := by simpa using h
      exact Or.inl ⟨path, hitem ▸ hpath, rfl⟩
    | succ index =>
      have hrest := ih (n := n + 1) (by simpa using h)
      exact Or.inr (by rwa [Nat.add_right_comm, Nat.add_assoc] at hrest)

/-- A step leads down the ways of a value. -/
lemma cons_mem_paths {value next : Json} {token : String} {path : List String}
    (h : step? Pointer.strictIndex? value token = some next) (hpath : path ∈ next.paths) :
    token :: path ∈ value.paths := by
  cases value with
  | object members =>
    exact List.mem_cons_of_mem _ (cons_mem_memberPaths (Entries.mem_of_lookup h) hpath)
  | array items =>
    obtain ⟨index, hindex, hitem⟩ := Option.bind_eq_some_iff.1 h
    have htoken := Pointer.strictIndex?_eq_some.1 hindex
    have := cons_mem_itemPaths (n := 0) hitem hpath
    rw [Nat.zero_add, ← htoken] at this
    exact List.mem_cons_of_mem _ this
  | _ => simp [step?] at h

lemma append_mem_paths {value below : Json} {path more : List String}
    (h : value.walk? path = some below) (hmore : more ∈ below.paths) :
    path ++ more ∈ value.paths := by
  induction path generalizing value with
  | nil => exact Option.some.inj h ▸ hmore
  | cons token path ih =>
    rw [walk?_cons] at h
    obtain ⟨next, hnext, hrest⟩ := Option.bind_eq_some_iff.1 h
    exact cons_mem_paths hnext (ih hrest)

lemma length_itemPaths {items : List Json} (h : ∀ item ∈ items, item.paths.length = item.positions)
    (index : ℕ) : (itemPaths index items).length = itemsPositions items := by
  induction items generalizing index with
  | nil => rfl
  | cons item rest ih =>
    rw [itemPaths, itemsPositions, List.length_append, List.length_map, h item List.mem_cons_self,
      ih (fun other hother => h other (List.mem_cons_of_mem _ hother))]

lemma length_memberPaths {members : Entries Json}
    (h : ∀ member ∈ members, member.2.paths.length = member.2.positions) :
    (memberPaths members).length = membersPositions members := by
  induction members with
  | nil => rfl
  | cons member rest ih =>
    rw [memberPaths, membersPositions, List.length_append, List.length_map, h member List.mem_cons_self,
      ih (fun other hother => h other (List.mem_cons_of_mem _ hother))]

/-- There is one way down to every position. -/
theorem length_paths (value : Json) : value.paths.length = value.positions := by
  match value with
  | .array items =>
    have hitems : ∀ item ∈ items, item.paths.length = item.positions := fun item _ => length_paths item
    rw [paths, positions, List.length_cons, length_itemPaths hitems]
  | .object members =>
    have hmembers : ∀ member ∈ members, member.2.paths.length = member.2.positions :=
      fun member _ => length_paths member.2
    rw [paths, positions, List.length_cons, length_memberPaths hmembers]
  | .null => rfl
  | .bool _ => rfl
  | .number _ => rfl
  | .string _ => rfl
termination_by value.depth
decreasing_by
  · exact Nat.lt_succ_of_le (depth_le_of_mem_items ‹_›)
  · exact Nat.lt_succ_of_le (depth_le_of_mem_members ‹_›)

lemma mem_paths_of_walk? {value below : Json} {path : List String}
    (h : value.walk? path = some below) : path ∈ value.paths := by
  have := append_mem_paths h (nil_mem_paths below)
  rwa [List.append_nil] at this

/-! ## Targets of references -/

lemma mem_itemTargets {item : Json} {items : List Json} {target : Pointer} (h : item ∈ items)
    (htarget : target ∈ item.targets) : target ∈ itemTargets items := by
  induction items with
  | nil => exact absurd h List.not_mem_nil
  | cons head rest ih =>
    simp only [itemTargets, List.mem_append]
    rcases List.mem_cons.1 h with rfl | h
    · exact Or.inl htarget
    · exact Or.inr (ih h)

lemma mem_memberTargets {member : String × Json} {members : Entries Json} {target : Pointer}
    (h : member ∈ members) (htarget : target ∈ member.2.targets) :
    target ∈ memberTargets members := by
  induction members with
  | nil => exact absurd h List.not_mem_nil
  | cons head rest ih =>
    simp only [memberTargets, List.mem_append]
    rcases List.mem_cons.1 h with rfl | h
    · exact Or.inl htarget
    · exact Or.inr (ih h)

lemma mem_targets_of_step? {value next : Json} {token : String} {target : Pointer}
    (h : step? Pointer.strictIndex? value token = some next) (htarget : target ∈ next.targets) :
    target ∈ value.targets := by
  cases value with
  | object members =>
    exact List.mem_append_right _ (mem_memberTargets (Entries.mem_of_lookup h) htarget)
  | array items =>
    obtain ⟨index, -, hitem⟩ := Option.bind_eq_some_iff.1 h
    exact mem_itemTargets (List.mem_of_getElem? hitem) htarget
  | _ => simp [step?] at h

/-- The references inside a value are those of all values that ways lead to. -/
lemma mem_targets {value : Json} {path : List String} {keywords : Entries Json} {target : Pointer}
    (h : value.walk? path = some (.object keywords)) (htarget : localTarget? keywords = some target) :
    target ∈ value.targets := by
  induction path generalizing value with
  | nil =>
    have hvalue : value = .object keywords := Option.some.inj h
    rw [hvalue]
    exact List.mem_append_left _ (Option.mem_toList.2 htarget)
  | cons token path ih =>
    rw [walk?_cons] at h
    obtain ⟨next, hnext, hrest⟩ := Option.bind_eq_some_iff.1 h
    exact mem_targets_of_step? hnext (ih hrest)

/-! ## Reachable pointers -/

variable {document : Json}

lemma mem_reachable {pointer : Pointer} :
    pointer ∈ document.reachable ↔ ∃ base ∈ "" :: document.targets, ∃ value,
      document.resolve? base = some value ∧ ∃ path ∈ value.paths, Pointer.join base path = pointer := by
  simp only [reachable, List.mem_flatMap]
  refine exists_congr fun base => and_congr_right fun _ => ?_
  cases document.resolve? base with
  | none => simp
  | some value => simp

lemma root_mem_reachable : "" ∈ document.reachable :=
  mem_reachable.2 ⟨"", List.mem_cons_self, document, rfl, [], nil_mem_paths document, rfl⟩

/-- A way down from what a reachable pointer leads to. -/
lemma join_mem_reachable {pointer : Pointer} {value : Json} {path : List String}
    (h : pointer ∈ document.reachable) (hvalue : document.resolve? pointer = some value)
    (hpath : path ∈ value.paths) : Pointer.join pointer path ∈ document.reachable := by
  obtain ⟨base, hbase, top, htop, way, _, rfl⟩ := mem_reachable.1 h
  rw [resolve?_join, htop] at hvalue
  exact mem_reachable.2 ⟨base, hbase, top, htop, way ++ path, append_mem_paths hvalue hpath,
    Pointer.join_append base way path⟩

/-- The target of a reference at any place. -/
lemma target_mem_reachable {pointer target : Pointer} {keywords : Entries Json}
    (h : document.resolve? pointer = some (.object keywords))
    (htarget : localTarget? keywords = some target) (hsome : (document.resolve? target).isSome) :
    target ∈ document.reachable := by
  obtain ⟨path, _, hwalk⟩ := Option.bind_eq_some_iff.1 h
  obtain ⟨value, hvalue⟩ := Option.isSome_iff_exists.1 hsome
  exact mem_reachable.2 ⟨target, List.mem_cons_of_mem _ (mem_targets hwalk htarget), value, hvalue, [],
    nil_mem_paths value, rfl⟩

end Json

namespace Outline

variable {document : Json} {pointer child : Pointer} {keywords : Entries Json} {keyword : String}

/-! ## What an outline lists -/

lemma single?_eq_some : single? pointer keywords keyword = some child
    ↔ ∃ inner, Entries.lookup keyword keywords = some (.object inner)
      ∧ child = Pointer.join pointer [keyword] := by
  unfold single?
  split
  · rename_i inner hlookup
    simp [hlookup, eq_comm]
  · rename_i hnone
    simp only [reduceCtorEq, false_iff]
    rintro ⟨inner, hlookup, -⟩
    exact hnone inner hlookup

lemma mem_named_iff {name : String} : (name, child) ∈ named pointer keywords keyword
    ↔ ∃ schemas schema, Entries.lookup keyword keywords = some (.object schemas)
      ∧ (name, schema) ∈ schemas ∧ child = Pointer.join pointer [keyword, name] := by
  unfold named
  split
  · rename_i schemas hlookup
    constructor
    · intro h
      obtain ⟨other, hother, h⟩ := List.mem_map.1 h
      obtain ⟨rfl, rfl⟩ := Prod.mk.inj h
      obtain ⟨⟨_, schema⟩, hmem, rfl⟩ := List.mem_map.1 hother
      exact ⟨schemas, schema, hlookup, hmem, rfl⟩
    · rintro ⟨others, schema, hothers, hmem, rfl⟩
      obtain rfl : schemas = others := by simpa [hlookup] using hothers
      exact List.mem_map.2 ⟨name, List.mem_map_of_mem hmem, rfl⟩
  · rename_i hnone
    simp only [List.not_mem_nil, false_iff]
    rintro ⟨schemas, _, hlookup, -⟩
    exact hnone schemas hlookup

lemma getElem?_listed {schemas : List Json} {index : ℕ}
    (h : Entries.lookup keyword keywords = some (.array schemas)) :
    (listed pointer keywords keyword)[index]? = some child
      ↔ index < schemas.length
        ∧ child = Pointer.join pointer [keyword, Pointer.indexToken index] := by
  rw [listed, h, List.getElem?_map]
  by_cases hindex : index < schemas.length
  · simp [hindex, eq_comm]
  · simp [hindex]

lemma mem_listed_iff : child ∈ listed pointer keywords keyword
    ↔ ∃ schemas index, Entries.lookup keyword keywords = some (.array schemas)
      ∧ index < schemas.length
      ∧ child = Pointer.join pointer [keyword, Pointer.indexToken index] := by
  constructor
  · intro h
    obtain ⟨index, hindex⟩ := List.mem_iff_getElem?.1 h
    cases hlookup : Entries.lookup keyword keywords with
    | none => simp [listed, hlookup] at h
    | some argument =>
      cases argument with
      | array schemas =>
        obtain ⟨hlt, hchild⟩ := (getElem?_listed hlookup).1 hindex
        exact ⟨schemas, index, rfl, hlt, hchild⟩
      | _ => simp [listed, hlookup] at h
  · rintro ⟨schemas, index, hlookup, hindex, rfl⟩
    exact List.mem_of_getElem? ((getElem?_listed hlookup).2 ⟨hindex, rfl⟩)

lemma isListed_iff : isListed keywords keyword = true
    ↔ ∃ schemas, Entries.lookup keyword keywords = some (.array schemas) := by
  unfold isListed
  cases Entries.lookup keyword keywords with
  | none => simp
  | some argument => cases argument <;> simp [Json.isArray]

lemma localTarget?_eq_some {target : Pointer} : Json.localTarget? keywords = some target
    ↔ Entries.lookup "$ref" keywords = some (.string ("#" ++ target)) := by
  constructor
  · intro h
    obtain ⟨argument, hlookup, h⟩ := Option.bind_eq_some_iff.1 h
    split at h
    · rename_i text htext
      obtain ⟨reference, hreference, hlist⟩ := Option.map_eq_some_iff.1 htext
      cases argument with
      | string other =>
        obtain rfl : other = reference := Option.some.inj hreference
        obtain rfl : String.ofList text = target := Option.some.inj h
        rw [hlookup]
        congr 2
        rw [← String.toList_inj, hlist]
        simp
      | _ => simp [Json.string?] at hreference
    · simp at h
  · intro h
    simp [Json.localTarget?, h, Json.string?]

/-! ## What a node leads to -/

/-- A schema with these keywords leads to a node: by a keyword under which values are handed on, or by a
reference that leads somewhere in the document. -/
inductive Visits (document : Json) (pointer : Pointer) (keywords : Entries Json) : Pointer → Prop
  | named {keyword name schemas schema} :
      keyword ∈ ["properties", "patternProperties"] →
      Entries.lookup keyword keywords = some (.object schemas) → (name, schema) ∈ schemas →
      Visits document pointer keywords (Pointer.join pointer [keyword, name])
  | listed {keyword index schemas} :
      keyword ∈ ["prefixItems", "allOf", "anyOf", "oneOf"] →
      Entries.lookup keyword keywords = some (.array schemas) → index < schemas.length →
      Visits document pointer keywords (Pointer.join pointer [keyword, Pointer.indexToken index])
  | single {keyword schema} :
      keyword ∈ ["additionalProperties", "items"] →
      Entries.lookup keyword keywords = some (.object schema) →
      Visits document pointer keywords (Pointer.join pointer [keyword])
  | tuple {index schemas} :
      (∀ others, Entries.lookup "prefixItems" keywords ≠ some (.array others)) →
      Entries.lookup "items" keywords = some (.array schemas) → index < schemas.length →
      Visits document pointer keywords (Pointer.join pointer ["items", Pointer.indexToken index])
  | beyond {schemas schema} :
      (∀ others, Entries.lookup "prefixItems" keywords ≠ some (.array others)) →
      Entries.lookup "items" keywords = some (.array schemas) →
      Entries.lookup "additionalItems" keywords = some (.object schema) →
      Visits document pointer keywords (Pointer.join pointer ["additionalItems"])
  | follower {keyword condition schema} :
      keyword ∈ ["then", "else"] → Entries.lookup "if" keywords = some condition →
      Entries.lookup keyword keywords = some (.object schema) →
      Visits document pointer keywords (Pointer.join pointer [keyword])
  | reference {target value} :
      Entries.lookup "$ref" keywords = some (.string ("#" ++ target)) →
      document.resolve? target = some value → Visits document pointer keywords target

lemma visits_of_itemNodes (h : child ∈ itemNodes (itemRule pointer keywords)) :
    Visits document pointer keywords child := by
  unfold itemRule at h
  split at h
  · obtain ⟨schemas, index, hlookup, hindex, rfl⟩ := mem_listed_iff.1 h
    exact .listed (by decide) hlookup hindex
  · rename_i hpre
    split at h
    · obtain ⟨schemas, index, hlookup, hindex, rfl⟩ := mem_listed_iff.1 h
      exact .tuple (fun others hothers => hpre (isListed_iff.2 ⟨others, hothers⟩)) hlookup hindex
    · split at h
      · rename_i node hnode
        obtain ⟨schema, hlookup, rfl⟩ := single?_eq_some.1 hnode
        obtain rfl := List.mem_singleton.1 h
        exact .single (by decide) hlookup
      · simp [itemNodes] at h

lemma visits_of_itemsBeyond? (h : itemsBeyond? pointer keywords = some child) :
    Visits document pointer keywords child := by
  unfold itemsBeyond? at h
  split at h
  · obtain ⟨schema, hlookup, rfl⟩ := single?_eq_some.1 h
    exact .single (by decide) hlookup
  · rename_i hpre
    split at h
    · rename_i hlisted
      obtain ⟨schema, hlookup, rfl⟩ := single?_eq_some.1 h
      obtain ⟨schemas, hschemas⟩ := isListed_iff.1 hlisted
      exact .beyond (fun others hothers => hpre (isListed_iff.2 ⟨others, hothers⟩)) hschemas hlookup
    · simp at h

/-- **What a node leads to.** -/
lemma visits_of_mem_children (h : child ∈ (ofKeywords document pointer keywords).children) :
    Visits document pointer keywords child := by
  have hnamed : ∀ keyword ∈ ["properties", "patternProperties"],
      child ∈ (named pointer keywords keyword).map Prod.snd → Visits document pointer keywords child := by
    intro keyword hkeyword h
    obtain ⟨⟨name, child⟩, hentry, rfl⟩ := List.mem_map.1 h
    obtain ⟨schemas, schema, hlookup, hname, rfl⟩ := mem_named_iff.1 hentry
    exact .named hkeyword hlookup hname
  have hlisted : ∀ keyword ∈ ["prefixItems", "allOf", "anyOf", "oneOf"],
      child ∈ listed pointer keywords keyword → Visits document pointer keywords child := by
    intro keyword hkeyword h
    obtain ⟨schemas, index, hlookup, hindex, rfl⟩ := mem_listed_iff.1 h
    exact .listed hkeyword hlookup hindex
  have hfollowing : ∀ keyword ∈ ["then", "else"], child ∈ (if Entries.contains "if" keywords then
      single? pointer keywords keyword else none).toList → Visits document pointer keywords child := by
    intro keyword hkeyword h
    split at h
    · rename_i hif
      rw [Entries.contains_eq_isSome] at hif
      obtain ⟨condition, hcondition⟩ := Option.isSome_iff_exists.1 hif
      obtain ⟨schema, hlookup, rfl⟩ := single?_eq_some.1 (Option.mem_toList.1 h)
      exact .follower hkeyword hcondition hlookup
    · simp at h
  simp only [children, ofKeywords, List.mem_append] at h
  obtain ((((((((h | h) | h) | h) | h) | h) | h) | h) | h) | h := h
  · exact hnamed "properties" (by decide) h
  · exact hnamed "patternProperties" (by decide) h
  · obtain ⟨schema, hlookup, rfl⟩ := single?_eq_some.1 (Option.mem_toList.1 h)
    exact .single (by decide) hlookup
  · exact visits_of_itemNodes h
  · exact visits_of_itemsBeyond? (Option.mem_toList.1 h)
  · exact hlisted "allOf" (by decide) h
  · rcases h with h | h
    · exact hlisted "anyOf" (by decide) h
    · exact hlisted "oneOf" (by decide) h
  · exact hfollowing "then" (by decide) h
  · exact hfollowing "else" (by decide) h
  · obtain ⟨htarget, hsome⟩ := Option.filter_eq_some_iff.1 (Option.mem_toList.1 h)
    obtain ⟨value, hvalue⟩ := Option.isSome_iff_exists.1 hsome
    exact .reference (localTarget?_eq_some.1 htarget) hvalue

lemma resolve?_of_keywordsAt? (h : keywordsAt? document pointer = some keywords) :
    document.resolve? pointer = some (.object keywords) := by
  obtain ⟨value, hvalue, hmembers⟩ := Option.bind_eq_some_iff.1 h
  cases value with
  | object members =>
    simp only [Json.members?, Option.some.injEq] at hmembers
    rw [hvalue, hmembers]
  | _ => simp [Json.members?] at hmembers

lemma keywordsAt?_of_resolve? (h : document.resolve? pointer = some (.object keywords)) :
    keywordsAt? document pointer = some keywords := by
  rw [keywordsAt?, h]
  rfl

lemma mem_children_of_visits (h : Visits document pointer keywords child) :
    child ∈ (ofKeywords document pointer keywords).children := by
  have hunlisted : ∀ {keyword : String}, (∀ others, Entries.lookup keyword keywords ≠ some (.array others)) →
      ¬isListed keywords keyword = true := by
    intro keyword hnone hlisted
    obtain ⟨others, hothers⟩ := isListed_iff.1 hlisted
    exact hnone others hothers
  simp only [children, ofKeywords, List.mem_append]
  cases h with
  | @named keyword name schemas schema hkeyword hlookup hname =>
    have hentry : Pointer.join pointer [keyword, name] ∈ (named pointer keywords keyword).map Prod.snd :=
      List.mem_map.2 ⟨_, mem_named_iff.2 ⟨schemas, schema, hlookup, hname, rfl⟩, rfl⟩
    obtain rfl | rfl : keyword = "properties" ∨ keyword = "patternProperties" := by
      simpa using hkeyword
    all_goals simp [hentry]
  | @listed keyword index schemas hkeyword hlookup hindex =>
    have hentry : Pointer.join pointer [keyword, Pointer.indexToken index]
        ∈ listed pointer keywords keyword := mem_listed_iff.2 ⟨schemas, index, hlookup, hindex, rfl⟩
    obtain rfl | rfl | rfl | rfl : keyword = "prefixItems" ∨ keyword = "allOf" ∨ keyword = "anyOf"
        ∨ keyword = "oneOf" := by
      simpa using hkeyword
    · simp [itemRule, isListed_iff.2 ⟨schemas, hlookup⟩, itemNodes, hentry]
    all_goals simp [hentry]
  | @single keyword schema hkeyword hlookup =>
    have hentry : single? pointer keywords keyword = some (Pointer.join pointer [keyword]) :=
      single?_eq_some.2 ⟨schema, hlookup, rfl⟩
    obtain rfl | rfl : keyword = "additionalProperties" ∨ keyword = "items" := by simpa using hkeyword
    · simp [hentry]
    · -- a schema for items is for those beyond a list, if there is one
      have hnone : ¬isListed keywords "items" = true := hunlisted (by simp [hlookup])
      by_cases hpre : isListed keywords "prefixItems" = true
      · simp [itemsBeyond?, hpre, hentry]
      · simp [itemRule, hpre, hnone, hentry, itemNodes]
  | @tuple index schemas hnone hlookup hindex =>
    have hentry : Pointer.join pointer ["items", Pointer.indexToken index]
        ∈ listed pointer keywords "items" := mem_listed_iff.2 ⟨schemas, index, hlookup, hindex, rfl⟩
    simp [itemRule, hunlisted hnone, isListed_iff.2 ⟨schemas, hlookup⟩, itemNodes, hentry]
  | @beyond schemas schema hnone hschemas hlookup =>
    have hentry : single? pointer keywords "additionalItems"
        = some (Pointer.join pointer ["additionalItems"]) := single?_eq_some.2 ⟨schema, hlookup, rfl⟩
    simp [itemsBeyond?, hunlisted hnone, isListed_iff.2 ⟨schemas, hschemas⟩, hentry]
  | @follower keyword condition schema hkeyword hcondition hlookup =>
    have hentry : single? pointer keywords keyword = some (Pointer.join pointer [keyword]) :=
      single?_eq_some.2 ⟨schema, hlookup, rfl⟩
    have hif : Entries.contains "if" keywords = true := by
      rw [Entries.contains_eq_isSome, hcondition, Option.isSome_some]
    obtain rfl | rfl : keyword = "then" ∨ keyword = "else" := by simpa using hkeyword
    all_goals simp [hif, hentry]
  | @reference target value hlookup hvalue =>
    refine Or.inr ?_
    rw [localTarget?_eq_some.2 hlookup, Option.filter_some, hvalue]
    simp

/-- A child of the node lies on a way down from it. -/
def Below (pointer : Pointer) (keywords : Entries Json) (child : Pointer) : Prop :=
  ∃ path ∈ (Json.object keywords).paths, child = Pointer.join pointer path

lemma cons_mem_paths_of_lookup {keyword : String} {argument : Json} {path : List String}
    (h : Entries.lookup keyword keywords = some argument) (hpath : path ∈ argument.paths) :
    keyword :: path ∈ (Json.object keywords).paths :=
  List.mem_cons_of_mem _ (Json.cons_mem_memberPaths (Entries.mem_of_lookup h) hpath)

lemma below_of_argument {argument : Json} (h : Entries.lookup keyword keywords = some argument) :
    Below pointer keywords (Pointer.join pointer [keyword]) :=
  ⟨[keyword], cons_mem_paths_of_lookup h (Json.nil_mem_paths _), rfl⟩

lemma below_of_item {schemas : List Json} {index : ℕ}
    (h : Entries.lookup keyword keywords = some (.array schemas)) (hindex : index < schemas.length) :
    Below pointer keywords (Pointer.join pointer [keyword, Pointer.indexToken index]) := by
  refine ⟨[keyword, Pointer.indexToken index], cons_mem_paths_of_lookup h ?_, rfl⟩
  have hpaths := Json.cons_mem_itemPaths (n := 0) (List.getElem?_eq_getElem hindex) (Json.nil_mem_paths _)
  rw [Nat.zero_add] at hpaths
  exact List.mem_cons_of_mem _ hpaths

lemma below_of_member {schemas : Entries Json} {name : String} {schema : Json}
    (h : Entries.lookup keyword keywords = some (.object schemas)) (hname : (name, schema) ∈ schemas) :
    Below pointer keywords (Pointer.join pointer [keyword, name]) :=
  ⟨[keyword, name], cons_mem_paths_of_lookup h
    (List.mem_cons_of_mem _ (Json.cons_mem_memberPaths hname (Json.nil_mem_paths _))), rfl⟩

lemma branches_subset_children (outline : Outline) : outline.branches ⊆ outline.children := by
  intro child h
  simp only [children, List.mem_append]
  tauto

lemma followers_subset_children (outline : Outline) :
    outline.consequent.toList ++ outline.alternative.toList ⊆ outline.children := by
  intro child h
  simp only [children, List.mem_append] at h ⊢
  tauto

/-- What a node leads to lies beneath it, or a reference leads to it. -/
lemma Visits.below_or_target (h : Visits document pointer keywords child) :
    Below pointer keywords child
      ∨ Json.localTarget? keywords = some child ∧ (document.resolve? child).isSome := by
  cases h with
  | named _ hlookup hname => exact Or.inl (below_of_member hlookup hname)
  | listed _ hlookup hindex => exact Or.inl (below_of_item hlookup hindex)
  | tuple _ hlookup hindex => exact Or.inl (below_of_item hlookup hindex)
  | single _ hlookup => exact Or.inl (below_of_argument hlookup)
  | beyond _ _ hlookup => exact Or.inl (below_of_argument hlookup)
  | follower _ _ hlookup => exact Or.inl (below_of_argument hlookup)
  | reference hlookup hvalue => exact Or.inr ⟨localTarget?_eq_some.2 hlookup, by rw [hvalue]; rfl⟩

/-! ## All nodes -/

/-- The nodes that the node at a pointer leads to. -/
def edges (document : Json) (pointer : Pointer) : List Pointer :=
  (read document pointer).children

lemma read_of_keywordsAt? (h : keywordsAt? document pointer = some keywords) :
    read document pointer = ofKeywords document pointer keywords := by
  simp only [read, h]

lemma edges_of_keywordsAt?_none (h : keywordsAt? document pointer = none) :
    edges document pointer = [] := by
  simp only [edges, read, h]
  rfl

/-- **The nodes that a node leads to.** -/
lemma mem_edges_iff : child ∈ edges document pointer
    ↔ ∃ keywords, document.resolve? pointer = some (.object keywords)
      ∧ Visits document pointer keywords child := by
  constructor
  · intro h
    cases hkeywords : keywordsAt? document pointer with
    | none => simp [edges_of_keywordsAt?_none hkeywords] at h
    | some keywords =>
      rw [edges, read_of_keywordsAt? hkeywords] at h
      exact ⟨keywords, resolve?_of_keywordsAt? hkeywords, visits_of_mem_children h⟩
  · rintro ⟨keywords, hvalue, h⟩
    rw [edges, read_of_keywordsAt? (keywordsAt?_of_resolve? hvalue)]
    exact mem_children_of_visits h

lemma edges_subset_reachable (h : pointer ∈ document.reachable) :
    edges document pointer ⊆ document.reachable := by
  intro child hchild
  obtain ⟨keywords, hvalue, hvisits⟩ := mem_edges_iff.1 hchild
  rcases hvisits.below_or_target with ⟨path, hpath, rfl⟩ | ⟨htarget, hsome⟩
  · exact Json.join_mem_reachable h hvalue hpath
  · exact Json.target_mem_reachable hvalue htarget hsome

/-- **The nodes of a document** are the root and all that it leads to. -/
lemma mem_nodes_iff : pointer ∈ nodes document ↔ Graph.Leads (edges document) "" pointer := by
  constructor
  · intro h
    obtain ⟨root, hroot, hleads⟩ := Graph.leads_of_mem_depthFirst h
    exact List.mem_singleton.1 hroot ▸ hleads
  · intro h
    refine Graph.mem_depthFirst_of_leads (fun _ => edges_subset_reachable) ?_
      (List.mem_singleton_self _) h
    intro root hroot
    exact List.mem_singleton.1 hroot ▸ Json.root_mem_reachable

/-- A chain of steps leads from the root of a document to a pointer. -/
inductive Reached (document : Json) : Pointer → Prop
  | root : Reached document ""
  | step {pointer child : Pointer} {keywords : Entries Json} : Reached document pointer →
      document.resolve? pointer = some (.object keywords) → Visits document pointer keywords child →
      Reached document child

/-- **The nodes of a document** are the ends of the chains of steps that begin at its root. -/
lemma mem_nodes_iff_reached : pointer ∈ nodes document ↔ Reached document pointer := by
  rw [mem_nodes_iff]
  constructor
  · intro h
    induction h with
    | refl => exact .root
    | tail _ hedge ih =>
      obtain ⟨keywords, hvalue, hvisits⟩ := mem_edges_iff.1 hedge
      exact ih.step hvalue hvisits
  · intro h
    induction h with
    | root => exact .refl
    | step _ hvalue hvisits ih => exact ih.tail (mem_edges_iff.2 ⟨_, hvalue, hvisits⟩)

end Outline

end SchemaAlgebra
