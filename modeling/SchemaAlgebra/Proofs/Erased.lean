import SchemaAlgebra.Proofs.Dropped
import SchemaAlgebra.Proofs.Subschemas

/-!
# Documents without a keyword

A keyword is erased at one place of a document.  Ways lead where they did before, but for what they
lead through being changed at that place; beneath the keyword nothing is left.  What a node leads to
depends on its keywords through their kinds only, and on the names under a few of them, so its outline
is the same, less the branches of the keyword at that place.

* `Json.eraseAt` — the document without the keyword.
* `Json.walk?_eraseAt_append`, `Json.walk?_eraseAt_of_not`, `Json.walk?_eraseAt_keyword` — where ways
  lead in it.
* `Outline.read_eraseAt` — the outlines of its nodes.
-/

namespace SchemaAlgebra

namespace Json

/-! ## Erasing -/

/-- The value without a keyword of the object at the end of a way. -/
def eraseAt (keyword : String) : List String → Json → Json
  | [], .object members => .object (Entries.erase keyword members)
  | token :: path, .object members =>
    .object (members.map fun member =>
      (member.1, if member.1 = token then eraseAt keyword path member.2 else member.2))
  | token :: path, .array items =>
    .array (items.mapIdx fun index item =>
      if Pointer.indexToken index = token then eraseAt keyword path item else item)
  | _, value => value

/-- The members without a keyword of the object at the end of a way. -/
def eraseUnder (keyword : String) (path : List String) (members : Entries Json) : Entries Json :=
  match path with
  | [] => Entries.erase keyword members
  | token :: path => members.map fun member =>
    (member.1, if member.1 = token then eraseAt keyword path member.2 else member.2)

variable {keyword : String} {path way : List String} {members : Entries Json} {value : Json}

@[simp] lemma eraseAt_object (keyword : String) (path : List String) (members : Entries Json) :
    eraseAt keyword path (.object members) = .object (eraseUnder keyword path members) := by
  cases path <;> rfl

lemma lookup_eraseUnder_cons (keyword token : String) (path : List String)
    (members : Entries Json) (key : String) :
    Entries.lookup key (eraseUnder keyword (token :: path) members)
      = (Entries.lookup key members).map fun value =>
          if key = token then eraseAt keyword path value else value := by
  induction members with
  | nil => rfl
  | cons member rest ih =>
    obtain ⟨k, v⟩ := member
    by_cases hk : k = key
    · subst hk
      simp [eraseUnder, Entries.lookup]
    · have hcons : eraseUnder keyword (token :: path) ((k, v) :: rest)
          = (k, if k = token then eraseAt keyword path v else v)
            :: eraseUnder keyword (token :: path) rest := rfl
      rw [hcons, Entries.lookup_cons_of_ne hk, Entries.lookup_cons_of_ne hk, ih]

/-! ## Steps and ways -/

/-- A step to where the keyword is erased. -/
lemma step?_eraseAt_self (keyword token : String) (path : List String) (value : Json) :
    step? Pointer.strictIndex? (eraseAt keyword (token :: path) value) token
      = (step? Pointer.strictIndex? value token).map (eraseAt keyword path) := by
  cases value with
  | object members =>
    rw [eraseAt_object, step?, step?, lookup_eraseUnder_cons]
    simp
  | array items =>
    simp only [eraseAt, step?]
    cases hindex : Pointer.strictIndex? token with
    | none => rfl
    | some index =>
      have htoken := Pointer.strictIndex?_eq_some.1 hindex
      simp [List.getElem?_mapIdx, htoken]
  | _ => rfl

/-- A step to another place. -/
lemma step?_eraseAt_of_ne {token other : String} (h : other ≠ token) (keyword : String)
    (path : List String) (value : Json) :
    step? Pointer.strictIndex? (eraseAt keyword (token :: path) value) other
      = step? Pointer.strictIndex? value other := by
  cases value with
  | object members =>
    rw [eraseAt_object, step?, step?, lookup_eraseUnder_cons]
    simp [h]
  | array items =>
    simp only [eraseAt, step?]
    cases hindex : Pointer.strictIndex? other with
    | none => rfl
    | some index =>
      have hother := Pointer.strictIndex?_eq_some.1 hindex
      simp [List.getElem?_mapIdx, ← hother, h]
  | _ => rfl

/-- A step from where the keyword is erased, which is no index. -/
lemma step?_eraseAt_nil (hkeyword : Pointer.strictIndex? keyword = none) (token : String)
    (value : Json) : step? Pointer.strictIndex? (eraseAt keyword [] value) token
      = if token = keyword then none else step? Pointer.strictIndex? value token := by
  split
  · rename_i htoken
    subst htoken
    cases value with
    | object members => exact Document.lookup_erase_self token members
    | array items => simp [eraseAt, step?, hkeyword]
    | _ => rfl
  · rename_i htoken
    cases value with
    | object members => exact Document.lookup_erase_of_ne htoken members
    | _ => rfl

/-- **Ways to where the keyword is erased.** -/
lemma walk?_eraseAt_append (keyword : String) (way path : List String) (value : Json) :
    (eraseAt keyword (way ++ path) value).walk? way
      = (value.walk? way).map (eraseAt keyword path) := by
  induction way generalizing value with
  | nil => rfl
  | cons token way ih =>
    rw [List.cons_append, walk?_cons, walk?_cons, step?_eraseAt_self]
    cases step? Pointer.strictIndex? value token with
    | none => rfl
    | some next => exact ih next

/-- **Ways to other places** lead where they did. -/
lemma walk?_eraseAt_of_not (hkeyword : Pointer.strictIndex? keyword = none) (hway : ¬way <+: path)
    (hbeneath : ¬path ++ [keyword] <+: way) (value : Json) :
    (eraseAt keyword path value).walk? way = value.walk? way := by
  induction path generalizing value way with
  | nil =>
    cases way with
    | nil => exact absurd List.nil_prefix hway
    | cons token way =>
      have htoken : token ≠ keyword := by
        rintro rfl
        exact hbeneath (List.prefix_append [token] way)
      rw [walk?_cons, walk?_cons, step?_eraseAt_nil hkeyword, if_neg htoken]
  | cons next path ih =>
    cases way with
    | nil => exact absurd List.nil_prefix hway
    | cons token way =>
      rw [walk?_cons, walk?_cons]
      by_cases htoken : token = next
      · subst htoken
        rw [step?_eraseAt_self]
        simp only [List.cons_append, List.cons_prefix_cons, true_and] at hway hbeneath
        cases step? Pointer.strictIndex? value token with
        | none => rfl
        | some below => exact ih hway hbeneath below
      · rw [step?_eraseAt_of_ne htoken]

/-- **Beneath the keyword** nothing is left. -/
lemma walk?_eraseAt_keyword (hkeyword : Pointer.strictIndex? keyword = none)
    (hbeneath : path ++ [keyword] <+: way) (value : Json) :
    (eraseAt keyword path value).walk? way = none := by
  obtain ⟨rest, rfl⟩ := hbeneath
  have hpath := walk?_eraseAt_append keyword path [] value
  rw [List.append_nil] at hpath
  rw [List.append_assoc, walk?_append, hpath]
  cases value.walk? path with
  | none => rfl
  | some below =>
    rw [Option.map_some, Option.bind_some, List.singleton_append, walk?_cons,
      step?_eraseAt_nil hkeyword, if_pos rfl]
    rfl

/-- Elsewhere there is something where there was something. -/
lemma isSome_walk?_eraseAt (hkeyword : Pointer.strictIndex? keyword = none)
    (hbeneath : ¬path ++ [keyword] <+: way) (value : Json) :
    ((eraseAt keyword path value).walk? way).isSome = (value.walk? way).isSome := by
  by_cases hway : way <+: path
  · obtain ⟨rest, rfl⟩ := hway
    rw [walk?_eraseAt_append, Option.isSome_map]
  · rw [walk?_eraseAt_of_not hkeyword hway hbeneath]

/-! ## Kinds of arguments -/

/-- An item as a name, if it is one. -/
def nameOf : Json → Json
  | .string name => .string name
  | _ => .null

/-- The kind of a value: all of a scalar, the names in a list, and that an object is one. -/
def kindOf : Json → Json
  | .object _ => .object []
  | .array items => .array (items.map nameOf)
  | value => value

lemma nameOf_eraseAt (keyword : String) (path : List String) (value : Json) :
    nameOf (eraseAt keyword path value) = nameOf value := by
  cases path <;> cases value <;> rfl

lemma kindOf_eraseAt (keyword : String) (path : List String) (value : Json) :
    kindOf (eraseAt keyword path value) = kindOf value := by
  cases value with
  | object members => rw [eraseAt_object, kindOf, kindOf]
  | array items =>
    cases path with
    | nil => rfl
    | cons token path =>
      simp only [eraseAt, kindOf, Json.array.injEq]
      refine List.ext_getElem (by simp) fun index _ _ => ?_
      simp only [List.getElem_map, List.getElem_mapIdx]
      split
      · exact nameOf_eraseAt keyword path _
      · rfl
  | _ => cases path <;> rfl

/-- Erasing changes no kinds, but for taking away the keyword itself. -/
lemma kindOf_lookup_eraseUnder {key : String} (h : key ≠ keyword ∨ path ≠ []) :
    (Entries.lookup key (eraseUnder keyword path members)).map kindOf
      = (Entries.lookup key members).map kindOf := by
  cases path with
  | nil =>
    rw [eraseUnder, Document.lookup_erase_of_ne (h.resolve_right (by simp))]
  | cons token path =>
    rw [lookup_eraseUnder_cons, Option.map_map]
    refine congrArg (Option.map · _) (funext fun value => ?_)
    simp only [Function.comp_apply]
    split
    · exact kindOf_eraseAt keyword path value
    · rfl

/-- What there is under a keyword is of one kind in both. -/
def SameKind (keywords others : Entries Json) (keyword : String) : Prop :=
  (Entries.lookup keyword others).map kindOf = (Entries.lookup keyword keywords).map kindOf

/-- A reference is kept. -/
lemma localTarget?_congr {keywords others : Entries Json} (h : SameKind keywords others "$ref") :
    localTarget? others = localTarget? keywords := by
  have halone : ∀ keywords : Entries Json, localTarget? keywords
      = localTarget? (((Entries.lookup "$ref" keywords).map kindOf).toList.map ("$ref", ·)) := by
    intro keywords
    unfold localTarget?
    cases Entries.lookup "$ref" keywords with
    | none => rfl
    | some argument => cases argument <;> rfl
  rw [halone, halone keywords, h]

end Json

namespace Outline

variable {document : Json} {pointer child : Pointer} {keywords others : Entries Json}
  {keyword : String} {path : List String}

open Json

/-! ## What outlines depend on -/

lemma contains_congr (h : SameKind keywords others keyword) :
    Entries.contains keyword others = Entries.contains keyword keywords := by
  have hsome := congrArg Option.isSome h
  rwa [Option.isSome_map, Option.isSome_map, ← Entries.contains_eq_isSome,
    ← Entries.contains_eq_isSome] at hsome

lemma single?_congr (h : SameKind keywords others keyword) :
    single? pointer others keyword = single? pointer keywords keyword := by
  have hkind : ∀ keywords, single? pointer keywords keyword
      = ((Entries.lookup keyword keywords).map kindOf).bind fun argument =>
          if argument.isObject then some (Pointer.join pointer [keyword]) else none := by
    intro keywords
    unfold single?
    cases Entries.lookup keyword keywords with
    | none => rfl
    | some argument => cases argument <;> rfl
  rw [hkind, hkind, h]

lemma listed_congr (h : SameKind keywords others keyword) :
    listed pointer others keyword = listed pointer keywords keyword := by
  have hkind : ∀ keywords, listed pointer keywords keyword
      = (((Entries.lookup keyword keywords).map kindOf).bind Json.items?).elim [] fun items =>
          (List.range items.length).map fun index =>
            Pointer.join pointer [keyword, Pointer.indexToken index] := by
    intro keywords
    unfold listed
    cases Entries.lookup keyword keywords with
    | none => rfl
    | some argument => cases argument <;> simp [kindOf, items?]
  rw [hkind, hkind, h]

lemma isListed_congr (h : SameKind keywords others keyword) :
    isListed others keyword = isListed keywords keyword := by
  have hkind : ∀ keywords, isListed keywords keyword
      = ((Entries.lookup keyword keywords).map kindOf).any Json.isArray := by
    intro keywords
    unfold isListed
    cases Entries.lookup keyword keywords with
    | none => rfl
    | some argument => cases argument <;> rfl
  rw [hkind, hkind, h]

lemma lookup_flag_congr (h : SameKind keywords others keyword) (flag : Bool) :
    Entries.lookup keyword others = some (.bool flag)
      ↔ Entries.lookup keyword keywords = some (.bool flag) := by
  have hkind : ∀ keywords : Entries Json, Entries.lookup keyword keywords = some (.bool flag)
      ↔ (Entries.lookup keyword keywords).map kindOf = some (.bool flag) := by
    intro keywords
    cases Entries.lookup keyword keywords with
    | none => simp
    | some argument => cases argument <;> simp [kindOf]
  rw [hkind, hkind, h]

/-- Names are kept, unless the keyword is erased among them. -/
lemma named_eraseUnder {role : String} (h : role ≠ keyword ∨ path ≠ []) (hpath : path ≠ [role]) :
    named pointer (eraseUnder keyword path keywords) role = named pointer keywords role := by
  unfold named
  cases path with
  | nil => rw [eraseUnder, Document.lookup_erase_of_ne (h.resolve_right (by simp))]
  | cons token path =>
    rw [lookup_eraseUnder_cons]
    cases Entries.lookup role keywords with
    | none => rfl
    | some argument =>
      by_cases hrole : role = token
      · subst hrole
        simp only [Option.map_some, if_true]
        obtain ⟨next, rest, rfl⟩ := List.exists_cons_of_ne_nil fun h : path = [] => hpath (by rw [h])
        cases argument with
        | object members => simp [eraseUnder, Entries.keys]
        | _ => rfl
      · simp [hrole]

/-! ## Outlines of documents without a keyword -/

/-- The branches of a node that are gone when the keyword is erased at the end of a way. -/
def erasedBranches (document : Json) (path : List String) (keyword : String) (pointer : Pointer) :
    List Pointer :=
  if Pointer.tokens? pointer = some path then listed pointer (keywordsAt document pointer) keyword
  else []

/-- A keyword under which branches are listed. -/
def IsBranching (keyword : String) : Prop :=
  keyword = "anyOf" ∨ keyword = "oneOf"

lemma IsBranching.strictIndex? (h : IsBranching keyword) : Pointer.strictIndex? keyword = none := by
  rcases h with rfl | rfl <;> decide

lemma exists_index_of_mem_listed (h : child ∈ listed pointer keywords keyword) :
    ∃ index, child = Pointer.join pointer [keyword, Pointer.indexToken index] := by
  obtain ⟨_, index, -, -, rfl⟩ := mem_listed_iff.1 h
  exact ⟨index, rfl⟩

/-- Lists under two keywords have no node in common. -/
lemma not_mem_listed {role : String} (hpointer : (Pointer.tokens? pointer).isSome = true)
    (hne : role ≠ keyword) (h : child ∈ listed pointer keywords role) :
    child ∉ listed pointer others keyword := by
  intro hother
  obtain ⟨index, rfl⟩ := exists_index_of_mem_listed h
  obtain ⟨place, hplace⟩ := exists_index_of_mem_listed hother
  obtain ⟨way, hway⟩ := Option.isSome_iff_exists.1 hpointer
  have htokens := congrArg Pointer.tokens? hplace
  rw [Pointer.tokens?_join, Pointer.tokens?_join, hway, Option.map_some, Option.map_some,
    Option.some.injEq, List.append_cancel_left_eq, List.cons.injEq] at htokens
  exact hne htokens.1

/-- The branches that are left when those of one keyword are dropped. -/
lemma filter_branches (hkeyword : IsBranching keyword)
    (hpointer : (Pointer.tokens? pointer).isSome = true) :
    (listed pointer keywords "anyOf" ++ listed pointer keywords "oneOf").filter
        (fun branch => branch ∉ listed pointer keywords keyword)
      = (if keyword = "anyOf" then [] else listed pointer keywords "anyOf")
        ++ if keyword = "oneOf" then [] else listed pointer keywords "oneOf" := by
  have hown : ∀ role, role = keyword → (listed pointer keywords role).filter
      (fun branch => branch ∉ listed pointer keywords keyword) = [] := by
    rintro role rfl
    simp
  have hother : ∀ role, role ≠ keyword → (listed pointer keywords role).filter
      (fun branch => branch ∉ listed pointer keywords keyword) = listed pointer keywords role := by
    intro role hne
    refine List.filter_eq_self.2 fun branch hbranch => ?_
    simpa using not_mem_listed hpointer hne hbranch
  rw [List.filter_append]
  rcases hkeyword with rfl | rfl
  · rw [hown "anyOf" rfl, hother "oneOf" (by decide)]
    rfl
  · rw [hown "oneOf" rfl, hother "anyOf" (by decide)]
    rfl

/-- The branches of a node, when the keyword is erased in it or further down. -/
lemma branches_eraseUnder (hkeyword : IsBranching keyword)
    (hpointer : (Pointer.tokens? pointer).isSome = true) :
    listed pointer (eraseUnder keyword path keywords) "anyOf"
        ++ listed pointer (eraseUnder keyword path keywords) "oneOf"
      = (listed pointer keywords "anyOf" ++ listed pointer keywords "oneOf").filter
          fun branch => branch ∉ if path = [] then listed pointer keywords keyword else [] := by
  by_cases hnil : path = []
  · subst hnil
    have hrole : ∀ role, listed pointer (eraseUnder keyword [] keywords) role
        = if keyword = role then [] else listed pointer keywords role := by
      intro role
      split
      · rename_i hrole
        subst hrole
        rw [listed, eraseUnder, Document.lookup_erase_self]
      · rename_i hrole
        exact listed_congr (kindOf_lookup_eraseUnder (Or.inl (Ne.symm hrole)))
    rw [if_pos rfl, filter_branches hkeyword hpointer, hrole, hrole]
  · rw [listed_congr (kindOf_lookup_eraseUnder (Or.inr hnil)),
      listed_congr (kindOf_lookup_eraseUnder (Or.inr hnil)), if_neg hnil]
    simp

/-- The keywords that an outline is read from by what kind of value is under them: all but those of
names and of branches. -/
def kindKeywords : List String :=
  ["$ref", "if", "then", "else", "allOf", "prefixItems", "items", "additionalItems",
    "additionalProperties"]

/-- **Outlines that differ in their branches** at most are those of keywords with the same names, and
values of the same kinds. -/
lemma ofKeywords_of_sameKind (hkind : ∀ role ∈ kindKeywords, SameKind keywords others role)
    (hproperties : named pointer others "properties" = named pointer keywords "properties")
    (hpatterns : named pointer others "patternProperties" = named pointer keywords "patternProperties") :
    ofKeywords document pointer others
      = { ofKeywords document pointer keywords with
          branches := listed pointer others "anyOf" ++ listed pointer others "oneOf" } := by
  have hsingle : ∀ role ∈ kindKeywords, single? pointer others role = single? pointer keywords role :=
    fun role hrole => single?_congr (hkind role hrole)
  have hlisted : ∀ role ∈ kindKeywords, listed pointer others role = listed pointer keywords role :=
    fun role hrole => listed_congr (hkind role hrole)
  have hisListed : ∀ role ∈ kindKeywords, isListed others role = isListed keywords role :=
    fun role hrole => isListed_congr (hkind role hrole)
  have hconditional : Entries.contains "if" others = Entries.contains "if" keywords :=
    contains_congr (hkind "if" (by decide))
  simp only [ofKeywords, Outline.mk.injEq, true_and]
  refine ⟨hproperties, hpatterns, hsingle _ (by decide), ?_, ?_, ?_, hlisted _ (by decide), ?_, ?_, ?_,
    ?_⟩
  · exact decide_eq_decide.2 (lookup_flag_congr (hkind _ (by decide)) false)
  · simp only [itemRule, hisListed "prefixItems" (by decide), hisListed "items" (by decide),
      hlisted "prefixItems" (by decide), hlisted "items" (by decide), hsingle "items" (by decide)]
  · simp only [itemsBeyond?, hisListed "prefixItems" (by decide), hisListed "items" (by decide),
      hsingle "items" (by decide), hsingle "additionalItems" (by decide)]
  · rw [hconditional]
  · rw [hconditional, hsingle "then" (by decide)]
  · rw [hconditional, hsingle "else" (by decide)]
  · rw [localTarget?_congr (hkind "$ref" (by decide))]

/-- The other keywords of a node are read as before. -/
lemma ofKeywords_eraseUnder (hkeyword : IsBranching keyword)
    (hpath : ∀ role ∈ ["properties", "patternProperties"], path ≠ [role])
    (hpointer : (Pointer.tokens? pointer).isSome = true) :
    ofKeywords document pointer (eraseUnder keyword path keywords)
      = (ofKeywords document pointer keywords).dropBranches
          (if path = [] then listed pointer keywords keyword else []) := by
  have hother : ∀ role ∉ ["anyOf", "oneOf"], role ≠ keyword ∨ path ≠ [] := by
    rintro role hrole
    refine Or.inl ?_
    rintro rfl
    exact hrole (by rcases hkeyword with rfl | rfl <;> decide)
  have hkind : ∀ role ∈ kindKeywords, SameKind keywords (eraseUnder keyword path keywords) role := by
    refine fun role hrole => kindOf_lookup_eraseUnder (hother role ?_)
    revert role
    decide
  rw [ofKeywords_of_sameKind hkind (named_eraseUnder (hother _ (by decide)) (hpath _ (by decide)))
    (named_eraseUnder (hother _ (by decide)) (hpath _ (by decide))),
    branches_eraseUnder hkeyword hpointer]
  rfl

/-- The document matters for the reference only. -/
lemma ofKeywords_congr {remaining : Json} (hreference : ∀ target, localTarget? keywords = some target →
      (remaining.resolve? target).isSome = (document.resolve? target).isSome) :
    ofKeywords remaining pointer keywords = ofKeywords document pointer keywords := by
  have htarget : (localTarget? keywords).filter (fun target => (remaining.resolve? target).isSome)
      = (localTarget? keywords).filter fun target => (document.resolve? target).isSome := by
    cases htarget : localTarget? keywords with
    | none => rfl
    | some target => simp only [Option.filter_some, hreference target htarget]
  simp only [ofKeywords, htarget]

/-- Where there is a value in both documents, its keywords differ by what is erased. -/
lemma keywordsAt?_eraseAt {way : List String} (hkeyword : Pointer.strictIndex? keyword = none)
    (hpointer : Pointer.tokens? pointer = some way) (hbeneath : ¬path ++ [keyword] <+: way)
    (document : Json) : (∃ rest, path = way ++ rest ∧ keywordsAt? (eraseAt keyword path document) pointer
        = (keywordsAt? document pointer).map (eraseUnder keyword rest))
      ∨ ¬way <+: path ∧ keywordsAt? (eraseAt keyword path document) pointer
        = keywordsAt? document pointer := by
  by_cases hway : way <+: path
  · obtain ⟨rest, rfl⟩ := hway
    refine Or.inl ⟨rest, rfl, ?_⟩
    rw [keywordsAt?, keywordsAt?, Json.resolve?_eq, Json.resolve?_eq, hpointer, Option.bind_some,
      Option.bind_some, walk?_eraseAt_append]
    cases document.walk? way with
    | none => rfl
    | some value =>
      cases value with
      | object members =>
        rw [Option.map_some, eraseAt_object]
        rfl
      | _ => cases rest <;> rfl
  · refine Or.inr ⟨hway, ?_⟩
    rw [keywordsAt?, keywordsAt?, Json.resolve?_eq, Json.resolve?_eq, hpointer, Option.bind_some,
      Option.bind_some, walk?_eraseAt_of_not hkeyword hway hbeneath]

/-- References that are left lead somewhere in both documents or in neither. -/
lemma isSome_resolve?_eraseAt {target : Pointer} (hkeyword : Pointer.strictIndex? keyword = none)
    (htargets : ∀ target ∈ (eraseAt keyword path document).targets, ∀ way,
      Pointer.tokens? target = some way → ¬path ++ [keyword] <+: way)
    (hkeywords : keywordsAt? (eraseAt keyword path document) pointer = some keywords)
    (htarget : localTarget? keywords = some target) :
    ((eraseAt keyword path document).resolve? target).isSome = (document.resolve? target).isSome := by
  have hresolve := resolve?_of_keywordsAt? hkeywords
  rw [Json.resolve?_eq] at hresolve
  obtain ⟨place, -, hwalk⟩ := Option.bind_eq_some_iff.1 hresolve
  have hmem := Json.mem_targets hwalk htarget
  rw [Json.resolve?_eq, Json.resolve?_eq]
  cases htokens : Pointer.tokens? target with
  | none => rfl
  | some way => exact isSome_walk?_eraseAt hkeyword (htargets target hmem way htokens) document

/-- **Outlines** lose the branches of the erased keyword, if the document is left without references
into what is erased, and the names that a node declares are left alone. -/
lemma read_eraseAt (hkeyword : IsBranching keyword) {way : List String}
    (hpointer : Pointer.tokens? pointer = some way) (hbeneath : ¬path ++ [keyword] <+: way)
    (hpath : ∀ role ∈ ["properties", "patternProperties"], path ≠ way ++ [role])
    (htargets : ∀ target ∈ (eraseAt keyword path document).targets, ∀ way,
      Pointer.tokens? target = some way → ¬path ++ [keyword] <+: way) :
    read (eraseAt keyword path document) pointer
      = (read document pointer).dropBranches (erasedBranches document path keyword pointer) := by
  cases hkeywords : keywordsAt? document pointer with
  | none =>
    have hnone : keywordsAt? (eraseAt keyword path document) pointer = none := by
      rcases keywordsAt?_eraseAt hkeyword.strictIndex? hpointer hbeneath document with ⟨rest, -, h⟩ | ⟨-, h⟩
      · rw [h, hkeywords]
        rfl
      · rw [h, hkeywords]
    rw [read, read, hkeywords, hnone]
    rfl
  | some keywords =>
    have hthere : (Pointer.tokens? pointer).isSome = true := by rw [hpointer]; rfl
    have hgiven : keywordsAt document pointer = keywords := by rw [keywordsAt, hkeywords]; rfl
    rcases keywordsAt?_eraseAt hkeyword.strictIndex? hpointer hbeneath document with
      ⟨rest, rfl, h⟩ | ⟨hway, h⟩
    · rw [hkeywords, Option.map_some] at h
      rw [read_of_keywordsAt? hkeywords, read_of_keywordsAt? h, erasedBranches, hpointer, hgiven,
        ofKeywords_congr fun _ => isSome_resolve?_eraseAt hkeyword.strictIndex? htargets h,
        ofKeywords_eraseUnder hkeyword ?_ hthere]
      · simp
      · intro role hrole hrest
        exact hpath role hrole (by rw [hrest])
    · have hne : ¬way = path := fun hsame => hway (hsame ▸ List.prefix_refl _)
      rw [hkeywords] at h
      rw [read_of_keywordsAt? hkeywords, read_of_keywordsAt? h, erasedBranches, hpointer,
        if_neg (by simpa using hne),
        ofKeywords_congr fun _ => isSome_resolve?_eraseAt hkeyword.strictIndex? htargets h]
      simp [dropBranches]

end Outline

namespace Plan

/-- The transforms that a schema lists are left. -/
lemma transformNames_eraseAt {document : Json} {pointer : Pointer} {keyword : String}
    {path way : List String} (hkeyword : Outline.IsBranching keyword)
    (hpointer : Pointer.tokens? pointer = some way) (hbeneath : ¬path ++ [keyword] <+: way) :
    transformNames (Json.eraseAt keyword path document) pointer
      = transformNames document pointer := by
  have hkind : ∀ document, transformNames document pointer
      = ((((Outline.keywordsAt? document pointer).bind (Entries.lookup "transform")).map
          Json.kindOf).bind Json.items?).elim [] (List.map fun name => (name.string?).getD "") := by
    intro document
    unfold transformNames
    cases (Outline.keywordsAt? document pointer).bind (Entries.lookup "transform") with
    | none => rfl
    | some argument =>
      cases argument with
      | array items =>
        simp only [Option.map_some, Option.bind_some, Option.elim_some, Json.kindOf, Json.items?,
          List.map_map]
        refine List.map_congr_left fun item _ => ?_
        cases item <;> rfl
      | _ => rfl
  have hne : "transform" ≠ keyword := by rcases hkeyword with rfl | rfl <;> decide
  have hsame : ((Outline.keywordsAt? (Json.eraseAt keyword path document) pointer).bind
        (Entries.lookup "transform")).map Json.kindOf
      = ((Outline.keywordsAt? document pointer).bind (Entries.lookup "transform")).map Json.kindOf := by
    rcases Outline.keywordsAt?_eraseAt hkeyword.strictIndex? hpointer hbeneath document with
      ⟨rest, -, h⟩ | ⟨-, h⟩
    · rw [h]
      cases Outline.keywordsAt? document pointer with
      | none => rfl
      | some keywords => exact Json.kindOf_lookup_eraseUnder (Or.inl hne)
    · rw [h]
  rw [hkind, hkind, hsame]

end Plan

end SchemaAlgebra
