import SchemaAlgebra.Proofs.Composition
import SchemaAlgebra.Proofs.Erased
import SchemaAlgebra.Proofs.Widening

/-!
# The plan of a wider union

A document whose union has one more member, for `null` (`Widens`), has the nodes that it had, where they
were (`Widens.Stays`), and one for the new member.  They carry the names they carried, and their branches
are the same documents, so that the plan can be made if it could.

* `Widens.ofKeywords_eq` — the root has one more branch.
* `Widens.nodes_cases` — the nodes are the root, the new member, and those that there were.
* `Widens.buildable_root`, `Widens.Stays.buildable` — their branches have matchers, if they had.
* `Matcher.Widened.exists_build_newMember` — the new member has one, among the definitions of the union.
-/

namespace SchemaAlgebra

open Fragment (plainScope)

/-! ## Outlines and branches of two documents -/

/-- A node with other branches leads to these, and to what it led to. -/
lemma Outline.mem_children_cases {outline : Outline} {branches : List Pointer} {child : Pointer}
    (h : child ∈ { outline with branches := branches }.children) :
    child ∈ branches ∨ child ∈ outline.children := by
  simp only [children, List.mem_append] at h ⊢
  tauto

namespace Plan

variable {pointer : Pointer}

/-- A branch is the same document if the same stands there, and the same definitions are shared. -/
lemma branchDocument_congr {keywords others : Entries Json}
    (hshared : ∀ keyword ∈ sharedKeywords,
      Entries.lookup keyword others = Entries.lookup keyword keywords)
    (hresolve : (Json.object others).resolve? pointer = (Json.object keywords).resolve? pointer) :
    branchDocument (.object others) pointer = branchDocument (.object keywords) pointer := by
  have hshare : ∀ inner, ∀ keyword ∈ sharedKeywords,
      share others inner keyword = share keywords inner keyword := by
    intro inner keyword hkeyword
    rw [share, share, hshared keyword hkeyword]
  have hall : ∀ inner, shareAll others inner = shareAll keywords inner := by
    intro inner
    rw [shareAll, shareAll, sharedKeywords, List.foldl_cons, List.foldl_cons, List.foldl_cons,
      List.foldl_cons, List.foldl_cons, List.foldl_cons, List.foldl_nil, List.foldl_nil,
      hshare _ _ (by decide), hshare _ _ (by decide), hshare _ _ (by decide)]
  rw [branchDocument, branchDocument, hresolve]
  split
  · exact congrArg Json.object (hall _)
  · rfl
  · rfl

end Plan

/-! ## The plan of a wider union -/

namespace Widens

open Outline Plan

/-- The pointer of the new member. -/
def newMember (items : List Json) : Pointer :=
  Pointer.join "" ["anyOf", Pointer.indexToken items.length]

/-- A node is where it was. -/
structure Stays (keywords others : Entries Json) (pointer : Pointer) : Prop where
  mem : pointer ∈ Outline.nodes (.object keywords)
  resolve?_eq : (Json.object others).resolve? pointer = (Json.object keywords).resolve? pointer

variable {keywords others : Entries Json} {items : List Json} {pointer child target : Pointer}

namespace Stays

variable (h : Stays keywords others pointer)

include h

lemma keywordsAt?_eq : keywordsAt? (.object others) pointer = keywordsAt? (.object keywords) pointer := by
  rw [keywordsAt?, h.resolve?_eq, keywordsAt?]

lemma transformNames_eq :
    transformNames (.object others) pointer = transformNames (.object keywords) pointer := by
  rw [transformNames, h.keywordsAt?_eq, transformNames]

variable (hreferences : SameReferences (.object keywords) (.object others))

include hreferences

lemma read_eq :
    Outline.read (.object others) pointer = Outline.read (.object keywords) pointer := by
  rw [Outline.read, Outline.read, h.keywordsAt?_eq]
  cases hkeywords : keywordsAt? (.object keywords) pointer with
  | none => rfl
  | some inner =>
    obtain ⟨path, -, hwalk⟩ := Option.bind_eq_some_iff.1 (resolve?_of_keywordsAt? hkeywords)
    exact ofKeywords_congr fun target htarget => by
      rw [hreferences.planned path inner target hwalk htarget]

lemma edges_eq : edges (.object others) pointer = edges (.object keywords) pointer := by
  rw [edges, h.read_eq hreferences, edges]

/-- What a node leads to is where it was, if the node is. -/
lemma step (hchild : child ∈ edges (.object others) pointer) : Stays keywords others child := by
  rw [h.edges_eq hreferences] at hchild
  refine ⟨mem_nodes_iff.2 ((mem_nodes_iff.1 h.mem).tail hchild), ?_⟩
  obtain ⟨inner, hresolve, hvisits⟩ := mem_edges_iff.1 hchild
  rcases hvisits.below_or_target with ⟨path, -, rfl⟩ | ⟨htarget, -⟩
  · rw [Json.resolve?_join, Json.resolve?_join, h.resolve?_eq]
  · obtain ⟨path, -, hwalk⟩ := Option.bind_eq_some_iff.1 hresolve
    exact hreferences.planned path inner child hwalk htarget

lemma leads (hleads : Graph.Leads (edges (.object others)) pointer target) :
    Stays keywords others target ∧ Graph.Leads (edges (.object keywords)) pointer target := by
  induction hleads with
  | refl => exact ⟨h, .refl⟩
  | @tail before after _ hedge ih =>
    have hedge : after ∈ edges (.object others) before := hedge
    refine ⟨ih.1.step hreferences hedge, ih.2.tail ?_⟩
    rwa [ih.1.edges_eq hreferences] at hedge

lemma leadsToTransforms (hleads : LeadsToTransforms (.object others) pointer) :
    LeadsToTransforms (.object keywords) pointer := by
  obtain ⟨target, htarget, hnames⟩ := hleads
  obtain ⟨hstays, htarget⟩ := h.leads hreferences htarget
  exact ⟨target, htarget, hstays.transformNames_eq ▸ hnames⟩

end Stays

variable (h : Widens keywords others items)
  (hreferences : SameReferences (.object keywords) (.object others))

include h

/-! ### Nodes -/

lemma walk?_newMember :
    (Json.object others).walk? ["anyOf", Pointer.indexToken items.length] = some nullSchema := by
  have hitem : (items ++ [nullSchema])[items.length]? = some nullSchema := List.getElem?_concat_length
  rw [Json.walk?_object h.widened, Json.walk?_array hitem, Json.walk?_nil]

lemma resolve?_newMember : (Json.object others).resolve? (newMember items) = some nullSchema :=
  (Json.resolve?_join _ "" _).trans h.walk?_newMember

lemma edges_newMember : edges (.object others) (newMember items) = [] := by
  rw [edges, read_of_keywordsAt? (keywordsAt?_of_resolve? h.resolve?_newMember)]
  rfl

lemma not_leadsToTransforms_newMember : ¬ LeadsToTransforms (.object others) (newMember items) := by
  rintro ⟨target, htarget, hnames⟩
  rcases htarget.cases_head with rfl | ⟨next, hnext, -⟩
  · refine hnames ?_
    rw [transformNames, keywordsAt?_of_resolve? h.resolve?_newMember]
    rfl
  · have hnext : next ∈ edges (.object others) (newMember items) := hnext
    rw [h.edges_newMember] at hnext
    exact absurd hnext List.not_mem_nil

lemma listed_eq : listed "" others "anyOf" = listed "" keywords "anyOf" ++ [newMember items] := by
  rw [listed, h.widened, listed, h.union]
  dsimp only
  rw [List.length_append, List.length_singleton, List.range_succ, List.map_append]
  rfl

include hreferences

/-- **The outline of the wider union** has one more branch. -/
lemma ofKeywords_eq : ofKeywords (.object others) "" others
    = { ofKeywords (.object keywords) "" keywords with
        branches := listed "" keywords "anyOf" ++ [newMember items] ++ listed "" keywords "oneOf" } := by
  have hkind : ∀ role ∈ kindKeywords, Json.SameKind keywords others role := by
    refine fun role hrole => congrArg (Option.map Json.kindOf) (h.beside role ?_)
    revert role
    decide
  have hnamed : ∀ role ∉ reworded, named "" others role = named "" keywords role := fun role hrole => by
    rw [named, named, h.beside role hrole]
  have honeOf : listed "" others "oneOf" = listed "" keywords "oneOf" := by
    rw [listed, listed, h.beside _ (by decide)]
  have hdocument : ofKeywords (.object others) "" keywords = ofKeywords (.object keywords) "" keywords :=
    ofKeywords_congr fun target htarget => by
      rw [hreferences.planned [] keywords target rfl htarget]
  rw [ofKeywords_of_sameKind hkind (hnamed _ (by decide)) (hnamed _ (by decide)), hdocument, h.listed_eq,
    honeOf]

omit h hreferences in
lemma root_mem_nodes : "" ∈ Outline.nodes (.object keywords) :=
  mem_nodes_iff.2 .refl

/-- What the root led to is where it was. -/
lemma stays_of_mem_edges (hchild : child ∈ edges (.object keywords) "") : Stays keywords others child := by
  refine ⟨mem_nodes_iff.2 (.single hchild), ?_⟩
  rcases (visits_of_mem_children hchild).standsIn_or_target with
    ⟨tokens, value, hmem, hwalk, rfl⟩ | ⟨htarget, -⟩
  · obtain ⟨keyword, argument, hargument, hinside⟩ := Json.mem_inside_iff.1 hmem
    obtain ⟨rest, rfl⟩ : ∃ rest, tokens = keyword :: rest := Json.exists_tail_of_mem_insideOf hinside
    have hunion : keyword :: rest ≠ ["anyOf"] := by
      intro heq
      obtain ⟨rfl, rfl⟩ := List.cons.inj heq
      obtain rfl := Option.some.inj (h.union.symm.trans hargument)
      obtain ⟨_, -, heq⟩ := (Json.insideOf_list (by decide) _).1 hinside
      simp at heq
    have hdefault : keyword :: rest ≠ ["default"] := by
      intro heq
      obtain ⟨rfl, rfl⟩ := List.cons.inj heq
      rw [Json.insideOf_of_not_mem (by decide)] at hinside
      exact absurd hinside List.not_mem_nil
    rw [Json.resolve?_join, Json.resolve?_join]
    exact (h.walk?_of (List.cons_ne_nil _ _) hunion hdefault hwalk).trans hwalk.symm
  · exact hreferences.planned [] keywords child rfl htarget

lemma mem_branches_root (hbranch : child ∈ (Outline.read (.object others) "").branches) :
    child = newMember items ∨ child ∈ (Outline.read (.object keywords) "").branches := by
  have hread : Outline.read (.object others) "" = _ := h.ofKeywords_eq hreferences
  rw [hread, List.append_assoc, List.mem_append, List.mem_append, List.mem_singleton] at hbranch
  rcases hbranch with hbranch | hbranch | hbranch
  · exact Or.inr (List.mem_append_left _ hbranch)
  · exact Or.inl hbranch
  · exact Or.inr (List.mem_append_right _ hbranch)

lemma mem_edges_root (hchild : child ∈ edges (.object others) "") :
    child = newMember items ∨ child ∈ edges (.object keywords) "" := by
  have hread : Outline.read (.object others) "" = _ := h.ofKeywords_eq hreferences
  have hcases : child ∈ (Outline.read (.object others) "").branches
      ∨ child ∈ edges (.object keywords) "" := by
    rw [edges, hread] at hchild
    rw [hread]
    exact mem_children_cases hchild
  rcases hcases with hbranch | hold
  · exact (h.mem_branches_root hreferences hbranch).imp id fun hbranch =>
      branches_subset_children _ hbranch
  · exact Or.inr hold

/-- **The nodes of the wider union** are the root, the new member, and the nodes that there were. -/
lemma nodes_cases (hpointer : pointer ∈ Outline.nodes (.object others)) :
    pointer = "" ∨ pointer = newMember items ∨ Stays keywords others pointer := by
  have hleads := mem_nodes_iff.1 hpointer
  clear hpointer
  induction hleads with
  | refl => exact Or.inl rfl
  | @tail before after _ hedge ih =>
    have hedge : after ∈ edges (.object others) before := hedge
    rcases ih with rfl | rfl | hstays
    · exact Or.inr ((h.mem_edges_root hreferences hedge).imp id (h.stays_of_mem_edges hreferences))
    · rw [h.edges_newMember] at hedge
      exact absurd hedge List.not_mem_nil
    · exact Or.inr (Or.inr (hstays.step hreferences hedge))

omit hreferences in
lemma ne_root_of_stays (hstays : Stays keywords others pointer) : pointer ≠ "" := by
  rintro rfl
  have hsame : others = keywords := Json.object.inj (Option.some.inj hstays.resolve?_eq)
  have hunion := h.union.symm.trans (hsame ▸ h.widened)
  simp at hunion

/-! ### Chains -/

omit hreferences in
lemma exists_chainAt_newMember (f : Fragment) (settings : Options) :
    ∃ chain, chainAt f settings (.object others) (newMember items) = .ok chain := by
  refine exists_chainAt_iff.2 fun inner hinner => ?_
  obtain rfl := Option.some.inj ((keywordsAt?_of_resolve? h.resolve?_newMember).symm.trans hinner)
  exact ⟨rfl, fun _ hitems => by cases hitems⟩

omit hreferences in
lemma misplaced?_eq (pointer : Pointer) : misplaced? pointer others = misplaced? pointer keywords := by
  have hsame : ∀ keyword ∈ unvisitedSingles ++ unvisitedMaps,
      Entries.lookup keyword others = Entries.lookup keyword keywords := by
    intro keyword hkeyword
    refine h.beside keyword ?_
    revert keyword
    decide
  have hunvisited : unvisited pointer others = unvisited pointer keywords := by
    unfold unvisited
    refine congrArg₂ (· ++ ·) (List.filterMap_congr fun keyword hkeyword => ?_)
      (List.flatMap_congr fun keyword hkeyword => ?_)
    · rw [hsame keyword (List.mem_append_left _ hkeyword)]
    · rw [hsame keyword (List.mem_append_right _ hkeyword)]
  rw [misplaced?, hunvisited, misplaced?]

/-! ### Matchers -/

variable {build : MatcherBuilder}

omit hreferences in
lemma lookup_shared : ∀ keyword ∈ sharedKeywords,
    Entries.lookup keyword others = Entries.lookup keyword keywords := by
  intro keyword hkeyword
  refine h.beside keyword ?_
  revert keyword
  decide

omit hreferences in
lemma buildable_newMember : Buildable build (.object others) (newMember items) := by
  have hread : Outline.read (.object others) (newMember items)
      = ofKeywords (.object others) (newMember items) (Fragment.ofKind .null).keywords :=
    read_of_keywordsAt? (keywordsAt?_of_resolve? h.resolve?_newMember)
  refine ⟨?_, ?_, ?_⟩ <;> rw [hread]
  · exact fun _ hpattern => absurd hpattern List.not_mem_nil
  · exact fun _ _ hbranch => absurd hbranch List.not_mem_nil
  · intro _ _ hplace
    cases hplace

omit h in
/-- The matchers of a node that is where it was can be built if they could. -/
lemma Stays.buildable (hstays : Stays keywords others pointer)
    (hshared : ∀ keyword ∈ sharedKeywords,
      Entries.lookup keyword others = Entries.lookup keyword keywords)
    (hbuildable : Buildable build (.object keywords) pointer) :
    Buildable build (.object others) pointer := by
  have hread := hstays.read_eq hreferences
  have hchild : ∀ child ∈ (Outline.read (.object others) pointer).children,
      Stays keywords others child := fun child => hstays.step hreferences
  rw [hread] at hchild
  refine ⟨?_, ?_, ?_⟩
  · rw [hread]
    exact hbuildable.patterns
  · rw [hread]
    rintro ⟨active, hactive, hleads⟩ branch hbranch
    rw [branchDocument_congr hshared (hchild _ (branches_subset_children _ hbranch)).resolve?_eq]
    exact hbuildable.branches ⟨active, hactive, (hchild _ (branches_subset_children _ hactive)
      ).leadsToTransforms hreferences hleads⟩ branch hbranch
  · rw [hread]
    rintro ⟨active, hactive, hleads⟩ place hplace
    obtain ⟨rfl, -⟩ := condition_stands hplace
    have hresolve : (Json.object others).resolve? (Pointer.join pointer ["if"])
        = (Json.object keywords).resolve? (Pointer.join pointer ["if"]) := by
      rw [Json.resolve?_join, Json.resolve?_join, hstays.resolve?_eq]
    rw [branchDocument_congr hshared hresolve]
    exact hbuildable.condition ⟨active, hactive, (hchild _ (followers_subset_children _ hactive)
      ).leadsToTransforms hreferences hleads⟩ _ hplace

/-- The matchers of the root can be built if they could, and that of the new member can. -/
lemma buildable_root (hbuildable : Buildable build (.object keywords) "")
    (hmember : ∃ matcher, build (branchDocument (.object others) (newMember items)) = .ok matcher) :
    Buildable build (.object others) "" := by
  have hshared := h.lookup_shared
  have hread : Outline.read (.object others) "" = _ := h.ofKeywords_eq hreferences
  have hchild : ∀ child ∈ (Outline.read (.object keywords) "").children, Stays keywords others child :=
    fun child => h.stays_of_mem_edges hreferences
  refine ⟨?_, ?_, ?_⟩
  · rw [hread]
    exact hbuildable.patterns
  · rintro ⟨active, hactive, hleads⟩ branch hbranch
    have hactive := (h.mem_branches_root hreferences hactive).resolve_left fun heq =>
      h.not_leadsToTransforms_newMember (heq ▸ hleads)
    rcases h.mem_branches_root hreferences hbranch with rfl | hbranch
    · exact hmember
    · rw [branchDocument_congr hshared (hchild _ (branches_subset_children _ hbranch)).resolve?_eq]
      exact hbuildable.branches ⟨active, hactive, (hchild _ (branches_subset_children _ hactive)
        ).leadsToTransforms hreferences hleads⟩ branch hbranch
  · rw [hread]
    rintro ⟨active, hactive, hleads⟩ place hplace
    have hcondition : (Outline.read (.object keywords) "").condition = some place := hplace
    obtain ⟨rfl, -⟩ := condition_stands hcondition
    have hresolve : (Json.object others).resolve? (Pointer.join "" ["if"])
        = (Json.object keywords).resolve? (Pointer.join "" ["if"]) := by
      rw [Json.resolve?_join, Json.resolve?_join]
      exact congrArg (Option.bind · (Json.walk? · [])) (h.beside "if" (by decide))
    rw [branchDocument_congr hshared hresolve]
    exact hbuildable.condition ⟨active, hactive, (hchild _ (followers_subset_children _ hactive)
      ).leadsToTransforms hreferences hleads⟩ _ hplace

end Widens

/-! ## The matcher of the new member -/

namespace Widens

open Plan

variable {keywords others : Entries Json} {items : List Json} (h : Widens keywords others items)

include h

/-- The keywords of the new member, with the definitions of the union. -/
def sharedNull (others : Entries Json) : Entries Json :=
  shareAll others (Fragment.ofKind .null).keywords

lemma branchDocument_newMember :
    branchDocument (.object others) (newMember items) = .object (sharedNull others) :=
  branchDocument_object h.resolve?_newMember

lemma wellFormed_sharedNull : (Json.object (sharedNull others)).WellFormed := by
  refine ⟨sorted_shareAll (List.pairwise_singleton _ _), Json.membersWellFormed_iff.2 ?_⟩
  intro member hmember
  rcases mem_or_mem_of_mem_shareAll hmember with hmember | hmember
  · rw [List.mem_singleton.1 hmember]
    trivial
  · exact Json.membersWellFormed_iff.1 h.wellFormed'.2 member hmember

omit h in
lemma lookup_sharedNull {keyword : String} (hkeyword : keyword ∉ sharedKeywords) :
    Entries.lookup keyword (Entries.erase "$schema" (sharedNull others))
      = Entries.lookup keyword (Fragment.ofKind .null).keywords := by
  rw [Document.lookup_erase_of_ne (by rintro rfl; exact hkeyword (by decide))]
  exact Matcher.lookup_eq_of_own own_shareAll keyword hkeyword

/-- What is said there is said by the new member, or by the union. -/
lemma lookup_sharedNull_cases {keyword : String} {argument : Json}
    (hlookup : Entries.lookup keyword (Entries.erase "$schema" (sharedNull others)) = some argument) :
    (keyword, argument) = ("type", .string "null")
      ∨ Entries.lookup keyword (Entries.erase "$schema" others) = some argument := by
  have hkeyword : keyword ≠ "$schema" := by
    rintro rfl
    rw [Document.lookup_erase_self] at hlookup
    simp at hlookup
  rw [Document.lookup_erase_of_ne hkeyword] at hlookup ⊢
  rcases mem_or_mem_of_mem_shareAll (Entries.mem_of_lookup hlookup) with hmem | hmem
  · exact Or.inl (List.mem_singleton.1 hmem)
  · exact Or.inr (Entries.lookup_of_mem h.wellFormed'.1 hmem)

variable (hkeeps : (Document.kept (.object others)).KeepsScope plainScope)

include hkeeps

lemma keepsScope_sharedNull : (Document.kept (.object (sharedNull others))).KeepsScope plainScope := by
  intro path inner hwalk
  cases path with
  | nil =>
    obtain rfl := Json.object.inj (Option.some.inj hwalk)
    have hidentifier : Draft.draft7.identifier? (Entries.erase "$schema" (sharedNull others)) = none := by
      rw [Draft.identifier?, if_neg (show ¬ Draft.draft7 = .draft4 by decide),
        lookup_sharedNull (by decide)]
      split <;> rfl
    rw [Scope.enter, Document.lookup_erase_self]
    dsimp only [Option.bind_none, Option.getD_none]
    rw [hidentifier]
  | cons token rest =>
    rw [Json.walk?_cons] at hwalk
    obtain ⟨next, hnext, hrest⟩ := Option.bind_eq_some_iff.1 hwalk
    rcases h.lookup_sharedNull_cases hnext with hmember | hold
    · obtain ⟨rfl, rfl⟩ := Prod.mk.inj hmember
      cases rest <;> simp [Json.walk?, Json.step?] at hrest
    · refine hkeeps (token :: rest) inner ?_
      rw [Json.walk?_cons]
      exact Option.bind_eq_some_iff.2 ⟨next, hold, hrest⟩

/-- The references there are references in the union. -/
lemma mem_sites_of_sharedNull {site : Site} {text : String}
    (hsite : site ∈ Site.ofArgument plainScope [] .schema (Document.kept (.object (sharedNull others))))
    (htext : Draft.reference? site.keywords = some text) :
    site ∈ Site.ofArgument plainScope [] .schema (Document.kept (.object others)) := by
  have henter := Json.KeepsScope.enter_eq (h.keepsScope_sharedNull hkeeps)
  have henter' := Json.KeepsScope.enter_eq hkeeps
  rcases List.mem_cons.1 hsite with rfl | hsite
  · have hreference : Draft.reference? (Entries.erase "$schema" (sharedNull others)) = some text := htext
    rw [Draft.reference?, lookup_sharedNull (by decide),
      show Entries.lookup "$ref" (Fragment.ofKind .null).keywords = none from rfl] at hreference
    simp at hreference
  · rw [henter] at hsite
    obtain ⟨⟨keyword, argument⟩, hentry, shape, hshape, hsite⟩ := Site.mem_ofKeywords_iff.1 hsite
    have hsorted : (Entries.erase "$schema" (sharedNull others)).Sorted :=
      h.wellFormed_sharedNull.1.filter _
    rcases h.lookup_sharedNull_cases (Entries.lookup_of_mem hsorted hentry) with hmember | hold
    · obtain ⟨rfl, rfl⟩ := Prod.mk.inj hmember
      obtain rfl : Shape.types = shape := Option.some.inj hshape
      exact absurd hsite List.not_mem_nil
    · refine List.mem_cons_of_mem _ ?_
      rw [henter']
      exact Site.mem_ofKeywords_iff.2 ⟨_, Entries.mem_of_lookup hold, shape, hshape, hsite⟩

/-- So they name no other document, if none does in the union. -/
lemma isClosed_sharedNull (hclosed : (Document.ofJson .draft7 (.object others)).isClosed = true) :
    (Document.ofJson .draft7 (.object (sharedNull others))).isClosed = true := by
  rw [Document.isClosed_iff_of_keepsScope h.wellFormed' hkeeps, Document.sites_ofJson] at hclosed
  rw [Document.isClosed_iff_of_keepsScope h.wellFormed_sharedNull (h.keepsScope_sharedNull hkeeps),
    Document.sites_ofJson]
  intro site hsite text htext
  exact hclosed site (h.mem_sites_of_sharedNull hkeeps hsite htext) text htext

end Widens

namespace Matcher.Widened

variable {m m' : Matcher} {keywords others : Entries Json} {items : List Json}
  (h : Widened m m' keywords others items) {options : MatcherOptions} {extensions : List Extension}
  {registry : Registry}

include h

/-- **The new member has a matcher**, as a document with the definitions of the union. -/
lemma exists_build_newMember
    (hbuild : Matcher.build options extensions registry (.object others) = .ok m') :
    ∃ matcher, Matcher.build options extensions registry
      (Plan.branchDocument (.object others) (Widens.newMember items)) = .ok matcher := by
  have hdraft : m'.document.scope.draft = .draft7 := by rw [h.document', Plan.scope_ofJson]
  have hdocument : (Plan.aloneOf m' (.object others) (Widens.newMember items)).document
      = .ofJson .draft7 (.object (Widens.sharedNull others)) := by
    rw [Plan.aloneOf, hdraft, h.widens.branchDocument_newMember]
  have halone : (Plan.aloneOf m' (.object others) (Widens.newMember items)).InOneScope
      (.object (Widens.sharedNull others)) :=
    ⟨hdocument, h.widens.wellFormed_sharedNull, h.widens.keepsScope_sharedNull h.inScope'.keeps⟩
  have hoccurs : m'.Occurs nullSchema :=
    ⟨_, (congrArg (Json.walk? · _) h.inScope'.root_eq).trans h.widens.kept.walk?_newMember⟩
  have hsilent : ∀ met, Graph.Leads m'.successors (plainScope, nullSchema) met →
      m'.isSound met = true ∧ m'.texts met = [] := by
    intro met hmet
    rw [eq_of_leads_nullSchema hmet]
    exact ⟨isSound_nullSchema, texts_nullSchema⟩
  have hstands : Plan.StandsAlone m' (Plan.aloneOf m' (.object others) (Widens.newMember items))
      (plainScope, nullSchema) :=
    { isSchema := by
        have hschema : Draft.draft7.isSchema nullSchema = true := by decide
        rw [hdraft, hschema]
      isClosed := by
        rw [hdocument]
        refine h.widens.isClosed_sharedNull h.inScope'.keeps ?_
        rw [← h.document']
        exact (check_eq_ok_iff.1 (Plan.build_eq_ok_iff.1 hbuild).2).2.1
      sound := fun met hmet => ⟨(hsilent met hmet).1, by simp [(hsilent met hmet).2]⟩ }
  have hunmistaken : Unmistaken m' (Plan.aloneOf m' (.object others) (Widens.newMember items))
      (plainScope, nullSchema) := fun met hmet => by simp [(hsilent met hmet).2]
  exact ⟨_, (Plan.build_branchDocument_iff hbuild).2 ⟨rfl, Plan.check_of_standsAlone hbuild
    h.widens.resolve?_newMember (h.inScope'.rooted ⟨rfl, hoccurs⟩) (halone.rooted halone.meets_start)
    hunmistaken h.widens.wellFormed' hstands⟩⟩

end Matcher.Widened

end SchemaAlgebra
