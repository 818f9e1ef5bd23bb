import SchemaAlgebra.Proofs.Assembly
import SchemaAlgebra.Proofs.Coverage
import SchemaAlgebra.Proofs.Plain

/-!
# Schemas inside others

A schema that stands inside another, and carries there what it carried by itself
(`Fragment.Embeds`), has the nodes that it had, beneath the place where it stands.

* `Outline.ofKeywords_beneath` — the outline of a schema moves with its pointer.
* `Fragment.Embeds.leads` — a node of an embedded schema leads to the nodes that it led to.
* `Plan.exists_plan_iff` — what a schema needs to have a plan, node by node.
* `Fragment.Embeds.exists_chainAt`, `Fragment.Embeds.buildable` — and an embedded schema, at each
  node, has what it needs if it had by itself, and names and matchers are still found.
-/

namespace SchemaAlgebra

/-! ## Outlines beneath a pointer -/

namespace Outline

/-- Nodes of items beneath a pointer. -/
def itemsBeneath (pre : Pointer) : ItemRule → ItemRule
  | .none => .none
  | .each node => .each (pre ++ node)
  | .listed nodes => .listed (nodes.map (pre ++ ·))

/-- The outline with all its nodes beneath a pointer. -/
def beneath (pre : Pointer) (outline : Outline) : Outline where
  pointer := pre ++ outline.pointer
  properties := outline.properties.map fun (name, child) => (name, pre ++ child)
  patterns := outline.patterns.map fun (source, child) => (source, pre ++ child)
  additional := outline.additional.map (pre ++ ·)
  closed := outline.closed
  items := itemsBeneath pre outline.items
  additionalItems := outline.additionalItems.map (pre ++ ·)
  allOf := outline.allOf.map (pre ++ ·)
  branches := outline.branches.map (pre ++ ·)
  condition := outline.condition.map (pre ++ ·)
  consequent := outline.consequent.map (pre ++ ·)
  alternative := outline.alternative.map (pre ++ ·)
  reference := outline.reference.map (pre ++ ·)

variable {document other : Json} {pre pointer : Pointer} {keywords : Entries Json} {keyword : String}

lemma join_beneath (pre pointer : Pointer) (tokens : List String) :
    Pointer.join (pre ++ pointer) tokens = pre ++ Pointer.join pointer tokens := by
  rw [Pointer.join_eq_append, Pointer.join_eq_append pointer, String.append_assoc]

lemma single?_beneath : single? (pre ++ pointer) keywords keyword
    = (single? pointer keywords keyword).map (pre ++ ·) := by
  unfold single?
  split
  · rw [join_beneath, Option.map_some]
  · rfl

lemma listed_beneath : listed (pre ++ pointer) keywords keyword
    = (listed pointer keywords keyword).map (pre ++ ·) := by
  unfold listed
  split
  · rw [List.map_map]
    exact List.map_congr_left fun index _ => join_beneath pre pointer _
  · rfl

lemma named_beneath : named (pre ++ pointer) keywords keyword
    = (named pointer keywords keyword).map fun (name, child) => (name, pre ++ child) := by
  unfold named
  split
  · rw [List.map_map]
    exact List.map_congr_left fun name _ => congrArg (Prod.mk name) (join_beneath pre pointer _)
  · rfl

lemma itemRule_beneath : itemRule (pre ++ pointer) keywords
    = itemsBeneath pre (itemRule pointer keywords) := by
  unfold itemRule
  rw [listed_beneath, listed_beneath, single?_beneath]
  split
  · rfl
  · split
    · rfl
    · cases single? pointer keywords "items" <;> rfl

lemma itemsBeyond?_beneath : itemsBeyond? (pre ++ pointer) keywords
    = (itemsBeyond? pointer keywords).map (pre ++ ·) := by
  unfold itemsBeyond?
  rw [single?_beneath, single?_beneath]
  split
  · rfl
  · split <;> rfl

/-- **The outline of a schema** without a reference moves with its pointer, from one document to
another. -/
lemma ofKeywords_beneath (h : Entries.lookup "$ref" keywords = none) :
    ofKeywords document (pre ++ pointer) keywords
      = (ofKeywords other pointer keywords).beneath pre := by
  have htarget : Json.localTarget? keywords = none := by
    rw [Json.localTarget?, h]
    rfl
  simp only [ofKeywords, beneath, single?_beneath, listed_beneath, named_beneath, itemRule_beneath,
    itemsBeyond?_beneath, htarget, join_beneath, List.map_append]
  cases Entries.contains "if" keywords <;> rfl

lemma children_beneath (outline : Outline) :
    (outline.beneath pre).children = outline.children.map (pre ++ ·) := by
  have htoList : ∀ node : Option Pointer,
      (node.map (pre ++ ·)).toList = node.toList.map (pre ++ ·) := fun node => by
    cases node <;> rfl
  have hitems : itemNodes (itemsBeneath pre outline.items)
      = (itemNodes outline.items).map (pre ++ ·) := by
    cases outline.items <;> rfl
  have hsnd : ∀ nodes : List (String × Pointer),
      (nodes.map fun (name, child) => (name, pre ++ child)).map Prod.snd
        = (nodes.map Prod.snd).map (pre ++ ·) := fun nodes => by
    rw [List.map_map, List.map_map]
    rfl
  simp only [children, beneath, List.map_append, htoList, hitems, hsnd]

lemma followers_beneath (outline : Outline) :
    (outline.beneath pre).consequent.toList ++ (outline.beneath pre).alternative.toList
      = (outline.consequent.toList ++ outline.alternative.toList).map (pre ++ ·) := by
  rw [List.map_append]
  refine congrArg₂ _ ?_ ?_
  · cases hconsequent : outline.consequent <;> simp [beneath, hconsequent]
  · cases halternative : outline.alternative <;> simp [beneath, halternative]

/-- A condition stands under its keyword. -/
lemma condition_stands {place : Pointer} (h : (read document pointer).condition = some place) :
    place = Pointer.join pointer ["if"] ∧ ∃ keywords value, keywordsAt? document pointer = some keywords
      ∧ Entries.lookup "if" keywords = some value := by
  cases hkeywords : keywordsAt? document pointer with
  | none => simp [read, hkeywords] at h
  | some keywords =>
    rw [read_of_keywordsAt? hkeywords] at h
    obtain ⟨hcontains, hplace⟩ := Option.ite_none_right_eq_some.1 h
    rw [Entries.contains_eq_isSome] at hcontains
    obtain ⟨value, hvalue⟩ := Option.isSome_iff_exists.1 hcontains
    exact ⟨(Option.some.inj hplace).symm, keywords, value, rfl, hvalue⟩

end Outline

/-! ## Embedded schemas -/

namespace Fragment

/-- A part stands inside the whole, and carries its transforms there. -/
structure Embeds (whole part : Fragment) (tokens : List String) : Prop where
  inside : (tokens, part.json) ∈ Json.inside whole.keywords
  carries : ∀ path, whole.transformsOn (tokens ++ path) = part.transformsOn path

variable {whole part : Fragment} {tokens path : List String} {pointer target : Pointer}

namespace Embeds

section Nodes

variable (h : whole.Embeds part tokens) (hwf : whole.json.WellFormed) (hplain : part.json.Plain)

include h hwf

lemma resolve?_eq (path : List String) :
    whole.json.resolve? (Pointer.join "" tokens ++ Pointer.join "" path)
      = part.json.resolve? (Pointer.join "" path) := by
  have hwalk : whole.json.walk? tokens = some part.json := Json.walk?_of_mem_inside hwf h.inside
  have hroot : ∀ value : Json, ∀ path, value.resolve? (Pointer.join "" path) = value.walk? path :=
    fun value path => Json.resolve?_join value "" path
  rw [← Pointer.join_root_append, hroot, hroot, Json.walk?_append, hwalk, Option.bind_some]

include hplain

lemma keywordsAt?_eq (hpointer : pointer ∈ Outline.nodes part.json) :
    Outline.keywordsAt? whole.json (Pointer.join "" tokens ++ pointer)
      = Outline.keywordsAt? part.json pointer := by
  obtain ⟨path, rfl, -⟩ := Outline.holds_of_mem_nodes hplain.refFree hpointer
  rw [Outline.keywordsAt?, h.resolve?_eq hwf, Outline.keywordsAt?]

/-- The outline of an embedded schema at a node is the one it had by itself, beneath the place where
the schema stands. -/
lemma read_eq (hpointer : pointer ∈ Outline.nodes part.json) :
    Outline.read whole.json (Pointer.join "" tokens ++ pointer)
      = (Outline.read part.json pointer).beneath (Pointer.join "" tokens) := by
  rw [Outline.read, Outline.read, h.keywordsAt?_eq hwf hplain hpointer]
  cases hkeywords : Outline.keywordsAt? part.json pointer with
  | none => rfl
  | some keywords =>
    obtain ⟨path, rfl, hholds⟩ := Outline.holds_of_mem_nodes hplain.refFree hpointer
    exact Outline.ofKeywords_beneath (hplain.of_holds (hholds keywords hkeywords)).lookup_reference

lemma edges_eq (hpointer : pointer ∈ Outline.nodes part.json) :
    Outline.edges whole.json (Pointer.join "" tokens ++ pointer)
      = (Outline.edges part.json pointer).map (Pointer.join "" tokens ++ ·) := by
  rw [Outline.edges, h.read_eq hwf hplain hpointer, Outline.children_beneath, Outline.edges]

/-- **A node of an embedded schema** leads to the nodes that it led to. -/
lemma leads (hpointer : pointer ∈ Outline.nodes part.json)
    (hleads : Graph.Leads (Outline.edges whole.json) (Pointer.join "" tokens ++ pointer) target) :
    ∃ inner, target = Pointer.join "" tokens ++ inner
      ∧ Graph.Leads (Outline.edges part.json) pointer inner := by
  induction hleads with
  | refl => exact ⟨pointer, rfl, .refl⟩
  | @tail before after _ hedge ih =>
    obtain ⟨inner, rfl, hinner⟩ := ih
    have hnode := Outline.mem_nodes_iff.2 ((Outline.mem_nodes_iff.1 hpointer).trans hinner)
    have hedge : after ∈ Outline.edges whole.json (Pointer.join "" tokens ++ inner) := hedge
    rw [h.edges_eq hwf hplain hnode] at hedge
    obtain ⟨next, hnext, rfl⟩ := List.mem_map.1 hedge
    exact ⟨next, rfl, hinner.tail hnext⟩

lemma transformNames_eq (hpointer : pointer ∈ Outline.nodes part.json) :
    Plan.transformNames whole.json (Pointer.join "" tokens ++ pointer)
      = Plan.transformNames part.json pointer := by
  rw [Plan.transformNames, h.keywordsAt?_eq hwf hplain hpointer, Plan.transformNames]

end Nodes

lemma knowsTransform_eq (h : whole.Embeds part tokens) (options : Options) (path : List String)
    (name : String) :
    whole.knowsTransform options (Pointer.join "" (tokens ++ path)) name
      = part.knowsTransform options (Pointer.join "" path) name :=
  congrArg (fun carried : Option (Table Transform) => options.transforms.contains name
    || carried.any fun table : Table Transform => table.contains name) (h.carries path)

end Embeds

end Fragment

/-! ## Schemas that have plans -/

/-- A traversal succeeds if it does with each element. -/
lemma exists_mapM_ok {ε α β : Type} {f : α → Except ε β} {items : List α}
    (h : ∀ a ∈ items, ∃ b, f a = .ok b) : ∃ results, items.mapM f = .ok results := by
  cases hresult : items.mapM f with
  | ok results => exact ⟨results, rfl⟩
  | error error =>
    obtain ⟨a, ha, hfails⟩ := mapM_eq_error hresult
    obtain ⟨b, hb⟩ := h a ha
    rw [hb] at hfails
    simp at hfails

namespace Plan

variable {build : MatcherBuilder} {schema : Fragment} {options : Options} {plan : Plan}
  {document : Json} {pointer : Pointer}

/-- A node leads to one whose schema lists transforms. -/
def LeadsToTransforms (document : Json) (pointer : Pointer) : Prop :=
  ∃ target, Graph.Leads (Outline.edges document) pointer target
    ∧ transformNames document target ≠ []

/-- The matchers that a node needs can be built. -/
structure Buildable (build : MatcherBuilder) (document : Json) (pointer : Pointer) : Prop where
  patterns : ∀ pattern ∈ (Outline.read document pointer).patterns,
    ∃ matcher, build (patternDocument pattern.1) = .ok matcher
  branches : (∃ branch ∈ (Outline.read document pointer).branches, LeadsToTransforms document branch) →
    ∀ branch ∈ (Outline.read document pointer).branches,
      ∃ matcher, build (branchDocument document branch) = .ok matcher
  condition : (∃ node ∈ (Outline.read document pointer).consequent.toList
        ++ (Outline.read document pointer).alternative.toList, LeadsToTransforms document node) →
    ∀ place, (Outline.read document pointer).condition = some place →
      ∃ matcher, build (branchDocument document place) = .ok matcher

/-- A node with nothing below it needs no matchers. -/
lemma buildable_of_read (hread : Outline.read document pointer = { pointer := pointer }) :
    Buildable build document pointer where
  patterns := by simp [hread]
  branches := by simp [hread]
  condition := by simp [hread]

lemma chain_ne_nil_iff {chain : Chain} (h : chainAt schema options document pointer = .ok chain) :
    chain ≠ [] ↔ transformNames document pointer ≠ [] := by
  rw [← names_of_chainAt h, Ne, Ne, List.map_eq_nil_iff]

lemma active_iff_leadsToTransforms (h : compile build schema options = .ok plan)
    (hpointer : pointer ∈ Outline.nodes schema.json) :
    (plan.node pointer).active = true ↔ LeadsToTransforms schema.json pointer := by
  rw [active_iff h hpointer]
  refine exists_congr fun target => and_congr_right fun hleads => ?_
  have htarget := Outline.mem_nodes_iff.2 ((Outline.mem_nodes_iff.1 hpointer).trans hleads)
  exact chain_ne_nil_iff (compiled_node h htarget).2.chain

lemma exists_of_buildAll {documents : List (Json × Pointer)} {matchers : List (Matcher × Pointer)}
    (h : buildAll build documents = .ok matchers) {document : Json × Pointer}
    (hdocument : document ∈ documents) : ∃ matcher, build document.1 = .ok matcher := by
  obtain ⟨_, -, hbuilt⟩ := (mapM_eq_ok h).1 document hdocument
  obtain ⟨matcher, hmatcher, -⟩ := bind_eq_ok.1 hbuilt
  exact ⟨matcher, mapError_eq_ok.1 hmatcher⟩

lemma exists_buildAll {documents : List (Json × Pointer)}
    (h : ∀ document ∈ documents, ∃ matcher, build document.1 = .ok matcher) :
    ∃ matchers, buildAll build documents = .ok matchers := by
  refine exists_mapM_ok fun document hdocument => ?_
  obtain ⟨matcher, hmatcher⟩ := h document hdocument
  exact ⟨(matcher, document.2), bind_eq_ok.2 ⟨matcher, mapError_eq_ok.2 hmatcher, rfl⟩⟩

/-- The nodes of a compiled plan have the matchers that they need. -/
lemma buildable_of_compile (h : compile build schema options = .ok plan)
    (hpointer : pointer ∈ Outline.nodes schema.json) : Buildable build schema.json pointer := by
  have houtline := outline_node h hpointer
  have hactive : ∀ nodes ⊆ (Outline.read schema.json pointer).children,
      (∃ node ∈ nodes, LeadsToTransforms schema.json node) →
        (nodes.any fun node => (plan.node node).active) = true := by
    rintro nodes hnodes ⟨node, hnode, hleads⟩
    have hmem := Outline.mem_nodes_iff.2 ((Outline.mem_nodes_iff.1 hpointer).tail (hnodes hnode))
    exact List.any_eq_true.2 ⟨node, hnode, (active_iff_leadsToTransforms h hmem).2 hleads⟩
  refine ⟨fun pattern hpattern => ?_, fun hleads branch hbranch => ?_, fun hleads place hplace => ?_⟩
  · have hpatterns := (compiled_node h hpointer).2.patterns
    rw [houtline] at hpatterns
    exact exists_of_buildAll hpatterns (List.mem_map_of_mem hpattern)
  · have hbranches := branches_node h hpointer
    rw [houtline, if_pos (hactive _ (Outline.branches_subset_children _) hleads)] at hbranches
    rw [← hbranches] at hbranch
    obtain ⟨built, hbuilt, rfl⟩ := List.mem_map.1 hbranch
    exact ⟨built.1, built_of_mem_branches h hpointer hbuilt⟩
  · obtain ⟨hsome, hbuilt⟩ := condition_node h hpointer
    rw [houtline, hplace, hactive _ (Outline.followers_subset_children _) hleads] at hsome
    obtain ⟨matcher, hmatcher⟩ := Option.isSome_iff_exists.1 hsome
    obtain ⟨other, hother, hbuild⟩ := hbuilt matcher hmatcher
    rw [houtline, hplace] at hother
    exact ⟨matcher, Option.some.inj hother ▸ hbuild⟩

/-- A node that counts as active leads to one that lists transforms. -/
lemma leadsToTransforms_of_mem_activeNodes {entries : List (Pointer × Chain)}
    (hentries : chains schema options document = .ok entries)
    (h : pointer ∈ activeNodes document entries) : LeadsToTransforms document pointer := by
  obtain ⟨target, htarget, hleads⟩ := Graph.leads_of_mem_grow h
  obtain ⟨entry, hentry, rfl⟩ := List.mem_map.1 htarget
  obtain ⟨hentry, hchain⟩ := List.mem_filter.1 hentry
  obtain ⟨node, -, hread⟩ := (mapM_eq_ok hentries).2 entry hentry
  obtain ⟨chain, hchainAt, hread⟩ := bind_eq_ok.1 hread
  obtain rfl := Except.ok.inj hread
  exact ⟨_, hleads, (chain_ne_nil_iff hchainAt).1 (by simpa using hchain)⟩

lemma exists_assembled {entries : List (Pointer × Chain)} {entry : Pointer × Chain}
    (hentries : chains schema options document = .ok entries)
    (h : Buildable build document entry.1) :
    ∃ node, assembleNode build document (activeNodes document entries) entry = .ok node := by
  have hleads : ∀ nodes : List Pointer,
      (nodes.any fun node => node ∈ activeNodes document entries) = true →
        ∃ node ∈ nodes, LeadsToTransforms document node := by
    intro nodes hany
    obtain ⟨node, hnode, hactive⟩ := List.any_eq_true.1 hany
    exact ⟨node, hnode, leadsToTransforms_of_mem_activeNodes hentries (by simpa using hactive)⟩
  obtain ⟨patterns, hpatterns⟩ : ∃ patterns,
      patternMatchers build (Outline.read document entry.1) = .ok patterns := by
    refine exists_buildAll fun source hsource => ?_
    obtain ⟨pattern, hpattern, rfl⟩ := List.mem_map.1 hsource
    exact h.patterns pattern hpattern
  obtain ⟨branches, hbranches⟩ : ∃ branches, branchMatchers build document
      (activeNodes document entries) (Outline.read document entry.1) = .ok branches := by
    unfold branchMatchers
    split
    · rename_i hany
      refine exists_buildAll fun source hsource => ?_
      obtain ⟨branch, hbranch, rfl⟩ := List.mem_map.1 hsource
      exact h.branches (hleads _ hany) branch hbranch
    · exact ⟨[], rfl⟩
  obtain ⟨condition, hcondition⟩ : ∃ condition, conditionMatcher build document
      (activeNodes document entries) (Outline.read document entry.1) = .ok condition := by
    unfold conditionMatcher
    split
    · rename_i place hplace
      split
      · rename_i hany
        obtain ⟨matcher, hmatcher⟩ := h.condition (hleads _ hany) place hplace
        exact ⟨some matcher, by rw [hmatcher]; rfl⟩
      · exact ⟨none, rfl⟩
    · exact ⟨none, rfl⟩
  exact ⟨_, bind_eq_ok.2 ⟨patterns, hpatterns,
    bind_eq_ok.2 ⟨branches, hbranches, bind_eq_ok.2 ⟨condition, hcondition, rfl⟩⟩⟩⟩

/-- **A schema has a plan** exactly if at each node its transforms are found, and the matchers that
the node needs can be built. -/
lemma exists_plan_iff : (∃ plan, compile build schema options = .ok plan)
    ↔ ∀ pointer ∈ Outline.nodes schema.json,
      (∃ chain, chainAt schema options schema.json pointer = .ok chain)
        ∧ Buildable build schema.json pointer := by
  constructor
  · rintro ⟨plan, h⟩ pointer hpointer
    exact ⟨⟨_, (compiled_node h hpointer).2.chain⟩, buildable_of_compile h hpointer⟩
  · intro h
    obtain ⟨entries, hentries⟩ : ∃ entries, chains schema options schema.json = .ok entries := by
      refine exists_mapM_ok fun pointer hpointer => ?_
      obtain ⟨chain, hchain⟩ := (h pointer hpointer).1
      exact ⟨(pointer, chain), bind_eq_ok.2 ⟨chain, hchain, rfl⟩⟩
    obtain ⟨nodes, hnodes⟩ : ∃ nodes, entries.mapM (assembleNode build schema.json
        (activeNodes schema.json entries)) = .ok nodes := by
      refine exists_mapM_ok fun entry hentry => exists_assembled hentries ?_
      obtain ⟨pointer, hpointer, hread⟩ := (mapM_eq_ok hentries).2 entry hentry
      obtain ⟨chain, -, hread⟩ := bind_eq_ok.1 hread
      obtain rfl := Except.ok.inj hread
      exact (h pointer hpointer).2
    exact ⟨_, bind_eq_ok.2 ⟨entries, hentries, bind_eq_ok.2 ⟨nodes, hnodes, rfl⟩⟩⟩

/-! ## The parts of a whole -/

lemma snd_unvisited (pointer : Pointer) (keywords : Entries Json) :
    (unvisited pointer keywords).map Prod.snd = (unvisited "" keywords).map Prod.snd := by
  simp only [unvisited, List.map_append, List.map_filterMap, List.map_flatMap, Option.map_map]
  refine congrArg₂ _ rfl (List.flatMap_congr fun keyword _ => ?_)
  split
  · rw [List.map_map, List.map_map]
    rfl
  · rfl

/-- Whether a transform is misplaced does not depend on where the schema stands. -/
lemma misplaced?_eq_none_of {keywords : Entries Json} (h : misplaced? pointer keywords = none)
    (other : Pointer) : misplaced? other keywords = none := by
  refine List.findSome?_eq_none_iff.2 fun entry hentry => ?_
  have hmem := List.mem_map_of_mem hentry (f := Prod.snd)
  rw [snd_unvisited, ← snd_unvisited pointer] at hmem
  obtain ⟨before, hbefore, hvalue⟩ := List.mem_map.1 hmem
  have hnone := List.findSome?_eq_none_iff.1 h before hbefore
  rw [Option.map_eq_none_iff] at hnone ⊢
  rwa [hvalue] at hnone

/-- A part of a document that has nothing to share is a document by itself. -/
lemma branchDocument_of_silent {source : Entries Json} {value : Json}
    (hsilent : ∀ keyword ∈ sharedKeywords, Entries.lookup keyword source = none)
    (hvalue : (Json.object source).resolve? pointer = some value) :
    branchDocument (.object source) pointer = value := by
  by_cases hobject : value.isObject = true
  · obtain ⟨keywords, rfl⟩ := Matcher.exists_object_of_isObject hobject
    have hshare : ∀ keyword ∈ sharedKeywords, share source keywords keyword = keywords := by
      intro keyword hkeyword
      simp only [share, hsilent keyword hkeyword]
    rw [branchDocument_object hvalue]
    change Json.object (sharedKeywords.foldl (share source) keywords) = _
    rw [sharedKeywords, List.foldl_cons, List.foldl_cons, List.foldl_cons, List.foldl_nil,
      hshare _ (by decide), hshare _ (by decide), hshare _ (by decide)]
  · exact branchDocument_of_not_object hvalue (by simpa using hobject)

/-- What stands in a document can be built wherever it can be with the definitions of the document. -/
def Rebuilds (build build' : MatcherBuilder) (document : Json) : Prop :=
  ∀ path value matcher, document.resolve? (Pointer.join "" path) = some value →
    (∀ keywords, value = .object keywords → document.Holds path keywords) →
    build (branchDocument document (Pointer.join "" path)) = .ok matcher →
      ∃ matcher, build' value = .ok matcher

end Plan

namespace Fragment.Embeds

variable {whole part : Fragment} {tokens : List String} {pointer : Pointer} {settings options : Options}
  (h : whole.Embeds part tokens) (hwf : whole.json.WellFormed) (hplain : part.json.Plain)

include h hwf hplain

lemma leadsToTransforms (hpointer : pointer ∈ Outline.nodes part.json)
    (hleads : Plan.LeadsToTransforms whole.json (Pointer.join "" tokens ++ pointer)) :
    Plan.LeadsToTransforms part.json pointer := by
  obtain ⟨target, htarget, hnames⟩ := hleads
  obtain ⟨inner, rfl, hinner⟩ := h.leads hwf hplain hpointer htarget
  have hnode := Outline.mem_nodes_iff.2 ((Outline.mem_nodes_iff.1 hpointer).trans hinner)
  exact ⟨inner, hinner, h.transformNames_eq hwf hplain hnode ▸ hnames⟩

/-- **The transforms of a node** of an embedded schema are found if they were before, and if what they
are called is known. -/
lemma exists_chainAt (hlegible : ∀ path keywords, part.json.Holds path keywords →
      Legible (fun _ => True) keywords)
    (hknown : ∀ path keywords, part.json.Holds path keywords → ∀ name ∈ namedTransforms keywords,
      part.knowsTransform options (Pointer.join "" path) name = true)
    (hpointer : pointer ∈ Outline.nodes part.json)
    (hchain : ∃ chain, Plan.chainAt part settings part.json pointer = .ok chain) :
    ∃ chain, Plan.chainAt whole options whole.json (Pointer.join "" tokens ++ pointer)
      = .ok chain := by
  have hsame := h.keywordsAt?_eq hwf hplain hpointer
  obtain ⟨path, rfl, hholds⟩ := Outline.holds_of_mem_nodes hplain.refFree hpointer
  rw [Plan.exists_chainAt_iff] at hchain ⊢
  intro keywords hkeywords
  rw [hsame] at hkeywords
  refine ⟨Plan.misplaced?_eq_none_of (hchain keywords hkeywords).1 _, fun items hitems => ?_⟩
  have hholds := hholds keywords hkeywords
  obtain ⟨names, hnames⟩ := (hlegible path keywords hholds).transforms _ hitems
  refine Plan.resolveChain_ok hnames fun name hname => ?_
  rw [← Pointer.join_root_append, h.knowsTransform_eq]
  refine hknown path keywords hholds name ?_
  simp only [namedTransforms, hitems, Option.bind_some, hnames, Option.getD_some]
  exact hname

variable {build build' : Plan.MatcherBuilder}
  (hsilent : ∀ keyword ∈ Plan.sharedKeywords, Entries.lookup keyword whole.keywords = none)
  (hrebuilds : Plan.Rebuilds build build' part.json)

include hsilent hrebuilds

omit hplain in
lemma exists_build {path : List String} {value : Json} {matcher : Matcher}
    (hvalue : part.json.resolve? (Pointer.join "" path) = some value)
    (hholds : ∀ keywords, value = .object keywords → part.json.Holds path keywords)
    (hmatcher : build (Plan.branchDocument part.json (Pointer.join "" path)) = .ok matcher) :
    ∃ matcher, build' (Plan.branchDocument whole.json (Pointer.join "" tokens ++ Pointer.join "" path))
      = .ok matcher := by
  have hdocument : Plan.branchDocument whole.json (Pointer.join "" tokens ++ Pointer.join "" path)
      = value :=
    Plan.branchDocument_of_silent hsilent ((h.resolve?_eq hwf path).trans hvalue)
  rw [hdocument]
  exact hrebuilds path value matcher hvalue hholds hmatcher

/-- The matcher of a branch. -/
lemma exists_build_branch {branch : Pointer} (hbranch : branch ∈ Outline.nodes part.json)
    (hbuild : ∃ matcher, build (Plan.branchDocument part.json branch) = .ok matcher) :
    ∃ matcher, build' (Plan.branchDocument whole.json (Pointer.join "" tokens ++ branch))
      = .ok matcher := by
  obtain ⟨matcher, hmatcher⟩ := hbuild
  obtain ⟨value, hvalue⟩ := Option.isSome_iff_exists.1 (Outline.isSome_resolve?_of_mem_nodes hbranch)
  obtain ⟨path, rfl, hholds⟩ := Outline.holds_of_mem_nodes hplain.refFree hbranch
  refine h.exists_build hwf hsilent hrebuilds hvalue (fun keywords hobject => hholds keywords ?_) hmatcher
  exact Outline.keywordsAt?_of_resolve? (hobject ▸ hvalue)

/-- The matcher of a condition. -/
lemma exists_build_condition (hpointer : pointer ∈ Outline.nodes part.json) {place : Pointer}
    (hplace : (Outline.read part.json pointer).condition = some place)
    (hbuild : ∃ matcher, build (Plan.branchDocument part.json place) = .ok matcher) :
    ∃ matcher, build' (Plan.branchDocument whole.json (Pointer.join "" tokens ++ place))
      = .ok matcher := by
  obtain ⟨matcher, hmatcher⟩ := hbuild
  obtain ⟨rfl, keywords, value, hkeywords, hvalue⟩ := Outline.condition_stands hplace
  have hresolve : part.json.resolve? (Pointer.join pointer ["if"]) = some value := by
    rw [Json.resolve?_join, Outline.resolve?_of_keywordsAt? hkeywords, Option.bind_some,
      Json.walk?_object hvalue, Json.walk?_nil]
  obtain ⟨path, rfl, hholds⟩ := Outline.holds_of_mem_nodes hplain.refFree hpointer
  rw [← Pointer.join_append] at hmatcher hresolve ⊢
  refine h.exists_build hwf hsilent hrebuilds hresolve (fun others hobject => ?_) hmatcher
  have hinside := Json.mem_inside_single (by decide) hvalue (by rw [hobject]; rfl)
  rw [hobject] at hinside
  have hstep := (hholds keywords hkeywords).trans (.step hinside .self)
  rwa [List.append_nil] at hstep

/-- **The matchers of a node** of an embedded schema can be built if they could before, and if patterns
and what stands in the schema can. -/
lemma buildable (hpatterns : ∀ source matcher, build (Plan.patternDocument source) = .ok matcher →
      ∃ matcher, build' (Plan.patternDocument source) = .ok matcher)
    (hpointer : pointer ∈ Outline.nodes part.json)
    (hbuildable : Plan.Buildable build part.json pointer) :
    Plan.Buildable build' whole.json (Pointer.join "" tokens ++ pointer) := by
  have hread := h.read_eq hwf hplain hpointer
  have hchild : ∀ child ∈ (Outline.read part.json pointer).children,
      child ∈ Outline.nodes part.json := fun child hchild =>
    Outline.mem_nodes_iff.2 ((Outline.mem_nodes_iff.1 hpointer).tail hchild)
  refine ⟨fun pattern hpattern => ?_, ?_, ?_⟩
  · rw [hread] at hpattern
    obtain ⟨⟨source, child⟩, hmem, rfl⟩ := List.mem_map.1 hpattern
    obtain ⟨matcher, hmatcher⟩ := hbuildable.patterns _ hmem
    exact hpatterns source matcher hmatcher
  · rw [hread]
    rintro ⟨active, hactive, hleads⟩ branch hbranch
    obtain ⟨inner, hinner, rfl⟩ := List.mem_map.1 hactive
    obtain ⟨child, hmem, rfl⟩ := List.mem_map.1 hbranch
    have hleads := h.leadsToTransforms hwf hplain
      (hchild _ (Outline.branches_subset_children _ hinner)) hleads
    exact h.exists_build_branch hwf hplain hsilent hrebuilds
      (hchild _ (Outline.branches_subset_children _ hmem))
      (hbuildable.branches ⟨inner, hinner, hleads⟩ child hmem)
  · rw [hread, Outline.followers_beneath]
    rintro ⟨active, hactive, hleads⟩ place hplace
    obtain ⟨inner, hinner, rfl⟩ := List.mem_map.1 hactive
    obtain ⟨condition, hcondition, rfl⟩ := Option.map_eq_some_iff.1 hplace
    have hleads := h.leadsToTransforms hwf hplain
      (hchild _ (Outline.followers_subset_children _ hinner)) hleads
    exact h.exists_build_condition hwf hplain hsilent hrebuilds hpointer hcondition
      (hbuildable.condition ⟨inner, hinner, hleads⟩ condition hcondition)

end Fragment.Embeds

end SchemaAlgebra
