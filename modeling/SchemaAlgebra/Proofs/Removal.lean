import SchemaAlgebra.Proofs.Assembly
import SchemaAlgebra.Proofs.Erased

/-!
# Removing a keyword

A schema is compiled with and without `anyOf` or `oneOf` at one place.  The plans have the same nodes,
but for those that only the keyword leads to, and the same chains.  If none of the branches of the
keyword is active, the same nodes are active, so the second plan is the first without those branches
(`Plan.drops_withoutAt`).

* `Plan.run_withoutAt_alike` — both lead to the same where branches and conditions decide alike and what
  is removed is harmless to the branches of the other keyword (`Plan.Harmless`).
* `Plan.mixedSchema_leaves_number` — a branch that is in the way.
-/

namespace SchemaAlgebra

/-! ## Schemas without a keyword -/

namespace Fragment

/-- The fragment without a keyword of the schema at a place.  The records stay. -/
def withoutAt (f : Fragment) (path : List String) (keyword : String) : Fragment :=
  { f with keywords := Json.eraseUnder keyword path f.keywords }

/-- A keyword can be erased at a place, if no reference that is left leads to what is erased, and no node
takes the place for the names that it declares. -/
structure Erasable (f : Fragment) (path : List String) (keyword : String) : Prop where
  targets : ∀ target ∈ (f.withoutAt path keyword).json.targets, ∀ way,
    Pointer.tokens? target = some way → ¬path ++ [keyword] <+: way
  names : ∀ pointer ∈ Outline.nodes f.json, ∀ role ∈ ["properties", "patternProperties"],
    Pointer.tokens? (Pointer.child pointer role) ≠ some path

variable {f : Fragment} {path : List String} {keyword : String} {pointer : Pointer}

lemma json_withoutAt (f : Fragment) (path : List String) (keyword : String) :
    (f.withoutAt path keyword).json = Json.eraseAt keyword path f.json :=
  (Json.eraseAt_object keyword path f.keywords).symm

end Fragment

namespace Outline

variable {document : Json} {path : List String} {keyword : String} {pointer child : Pointer}

open Json

/-- Without some branches a node leads to what it led to, but for those. -/
lemma mem_children_dropBranches {outline : Outline} (dropped : List Pointer) :
    child ∈ outline.children
      ↔ child ∈ (outline.dropBranches dropped).children
        ∨ child ∈ outline.branches ∧ child ∈ dropped := by
  have hbranch : child ∈ outline.branches
      ↔ child ∈ outline.branches.filter (fun branch => branch ∉ dropped)
        ∨ child ∈ outline.branches ∧ child ∈ dropped := by
    by_cases hdropped : child ∈ dropped <;> simp [hdropped]
  simp only [children, dropBranches, List.mem_append]
  rw [hbranch]
  grind only

/-- No node lies beneath what is erased. -/
lemma exists_way_of_mem_nodes (hkeyword : Pointer.strictIndex? keyword = none)
    (h : pointer ∈ nodes (eraseAt keyword path document)) :
    ∃ way, Pointer.tokens? pointer = some way ∧ ¬path ++ [keyword] <+: way := by
  obtain ⟨value, hvalue⟩ := Option.isSome_iff_exists.1 (isSome_resolve?_of_mem_nodes h)
  rw [Json.resolve?_eq] at hvalue
  obtain ⟨way, hway, hwalk⟩ := Option.bind_eq_some_iff.1 hvalue
  refine ⟨way, hway, fun hbeneath => ?_⟩
  rw [walk?_eraseAt_keyword hkeyword hbeneath] at hwalk
  simp at hwalk

end Outline

namespace Plan

variable {build : MatcherBuilder} {f : Fragment} {options : Options} {plan plan' : Plan}
  {path : List String} {keyword : String} {pointer child : Pointer}

/-- The outline of a node that is left, and that it is a node of the whole. -/
lemma read_withoutAt (hkeyword : Outline.IsBranching keyword) (herasable : f.Erasable path keyword)
    (hpointer : pointer ∈ Outline.nodes (f.withoutAt path keyword).json)
    (hwhole : pointer ∈ Outline.nodes f.json) :
    Outline.read (f.withoutAt path keyword).json pointer
      = (Outline.read f.json pointer).dropBranches
          (Outline.erasedBranches f.json path keyword pointer) := by
  have htargets := herasable.targets
  rw [Fragment.json_withoutAt] at hpointer htargets ⊢
  obtain ⟨way, hway, hbeneath⟩ :=
    Outline.exists_way_of_mem_nodes hkeyword.strictIndex? hpointer
  refine Outline.read_eraseAt hkeyword hway hbeneath (fun role hrole hsame => ?_) htargets
  refine herasable.names pointer hwhole role hrole ?_
  rw [Pointer.tokens?_child, hway, Option.map_some, hsame]

/-- No node is new. -/
lemma nodes_withoutAt_subset (hkeyword : Outline.IsBranching keyword)
    (herasable : f.Erasable path keyword) :
    Outline.nodes (f.withoutAt path keyword).json ⊆ Outline.nodes f.json := by
  intro pointer hpointer
  have hleads := Outline.mem_nodes_iff.1 hpointer
  clear hpointer
  induction hleads with
  | refl => exact Outline.mem_nodes_iff.2 .refl
  | @tail pointer child hleads hedge ih =>
    have hpointer := Outline.mem_nodes_iff.2 hleads
    have hedge : child ∈ (Outline.read (f.withoutAt path keyword).json pointer).children := hedge
    rw [read_withoutAt hkeyword herasable hpointer ih] at hedge
    exact mem_nodes_of_edge ih ((Outline.mem_children_dropBranches _).2 (Or.inl hedge))

/-- An edge of the whole is left, or goes to a branch that is erased. -/
lemma edge_withoutAt (hkeyword : Outline.IsBranching keyword)
    (herasable : f.Erasable path keyword)
    (hpointer : pointer ∈ Outline.nodes (f.withoutAt path keyword).json) :
    child ∈ Outline.edges f.json pointer
      ↔ child ∈ Outline.edges (f.withoutAt path keyword).json pointer
        ∨ child ∈ (Outline.read f.json pointer).branches
          ∧ child ∈ Outline.erasedBranches f.json path keyword pointer := by
  have hwhole := nodes_withoutAt_subset hkeyword herasable hpointer
  rw [Outline.edges, Outline.edges, read_withoutAt hkeyword herasable hpointer hwhole]
  exact Outline.mem_children_dropBranches _

/-! ## The order of branches -/

/-- A list that falls into parts by what its elements stand for. -/
lemma eq_filter_append_filter {α β : Type} {g : α → β} {p : β → Bool} {as : List α}
    {front back : List β} (h : as.map g = front ++ back) (hfront : ∀ b ∈ front, p b = true)
    (hback : ∀ b ∈ back, p b = false) :
    as = as.filter (fun a => p (g a)) ++ as.filter fun a => !p (g a) := by
  obtain ⟨firsts, rest, rfl, rfl, rfl⟩ := List.map_eq_append_iff.1 h
  have hfirsts : ∀ a ∈ firsts, p (g a) = true := fun a ha => hfront _ (List.mem_map_of_mem ha)
  have hrest : ∀ a ∈ rest, p (g a) = false := fun a ha => hback _ (List.mem_map_of_mem ha)
  rw [List.filter_append, List.filter_append, List.filter_eq_self.2 hfirsts,
    List.filter_eq_nil_iff.2 (by simpa using hrest), List.filter_eq_nil_iff.2 (by simpa using hfirsts),
    List.filter_eq_self.2 (by simpa using hrest)]
  simp

/-- What is listed under `anyOf` stands before what is listed under `oneOf`. -/
lemma order_erased (hkeyword : Outline.IsBranching keyword)
    (h : compile build f options = .ok plan) (hpointer : pointer ∈ Outline.nodes f.json) :
    (plan.node pointer).branches
      = if decide (keyword = "anyOf") then
          idleBranches (plan.node pointer) (Outline.erasedBranches f.json path keyword pointer)
            ++ otherBranches (plan.node pointer) (Outline.erasedBranches f.json path keyword pointer)
        else otherBranches (plan.node pointer) (Outline.erasedBranches f.json path keyword pointer)
          ++ idleBranches (plan.node pointer) (Outline.erasedBranches f.json path keyword pointer) := by
  by_cases hplace : Pointer.tokens? pointer = some path
  · have hthere : (Pointer.tokens? pointer).isSome = true := by rw [hplace]; rfl
    have hlisted := branches_node h hpointer
    rw [outline_node h hpointer, Outline.read_eq] at hlisted
    rw [Outline.erasedBranches, if_pos hplace, idleBranches, otherBranches]
    split at hlisted
    · rcases hkeyword with rfl | rfl
      · rw [if_pos (by simp)]
        refine (eq_filter_append_filter hlisted (p := fun branch => decide (branch ∈
          Outline.listed pointer (Outline.keywordsAt f.json pointer) "anyOf")) ?_ ?_).trans ?_
        · simp
        · simpa using fun branch hbranch => Outline.not_mem_listed hthere (by decide) hbranch
        · simp
      · rw [if_neg (by decide)]
        refine (eq_filter_append_filter hlisted (p := fun branch => decide (branch ∉
          Outline.listed pointer (Outline.keywordsAt f.json pointer) "oneOf")) ?_ ?_).trans ?_
        · simpa using fun branch hbranch => Outline.not_mem_listed hthere (by decide) hbranch
        · simp
        · simp
    · rw [List.map_eq_nil_iff.1 hlisted]
      simp
  · rw [Outline.erasedBranches, if_neg hplace]
    simp [idleBranches, otherBranches]

/-! ## What is left of a plan -/

section Left

variable (hkeyword : Outline.IsBranching keyword) (herasable : f.Erasable path keyword)
  (h : compile build f options = .ok plan)
  (h' : compile build (f.withoutAt path keyword) options = .ok plan')

include hkeyword herasable h h'

lemma outline_withoutAt (hpointer : pointer ∈ Outline.nodes (f.withoutAt path keyword).json) :
    (plan'.node pointer).outline = (plan.node pointer).outline.dropBranches
      (Outline.erasedBranches f.json path keyword pointer) := by
  have hwhole := nodes_withoutAt_subset hkeyword herasable hpointer
  rw [outline_node h hwhole, outline_node h' hpointer,
    read_withoutAt hkeyword herasable hpointer hwhole]

lemma chain_withoutAt (hpointer : pointer ∈ Outline.nodes (f.withoutAt path keyword).json) :
    (plan'.node pointer).chain = (plan.node pointer).chain := by
  have hwhole := nodes_withoutAt_subset hkeyword herasable hpointer
  refine chain_congr (compiled_node h hwhole).2.chain (compiled_node h' hpointer).2.chain ?_ rfl
  rw [Fragment.json_withoutAt] at hpointer ⊢
  obtain ⟨way, hway, hbeneath⟩ := Outline.exists_way_of_mem_nodes hkeyword.strictIndex? hpointer
  exact transformNames_eraseAt hkeyword hway hbeneath

variable (hidle : ∀ pointer ∈ Outline.nodes f.json,
  ∀ branch ∈ Outline.erasedBranches f.json path keyword pointer, (plan.node branch).active = false)

include hidle

/-- **The same nodes are active**, as what is erased leads to no transforms. -/
lemma active_withoutAt (hpointer : pointer ∈ Outline.nodes (f.withoutAt path keyword).json) :
    (plan'.node pointer).active = (plan.node pointer).active := by
  have hsubset := nodes_withoutAt_subset hkeyword herasable
  have hedge : ∀ {pointer child}, pointer ∈ Outline.nodes (f.withoutAt path keyword).json →
      child ∈ Outline.edges (f.withoutAt path keyword).json pointer →
      child ∈ Outline.nodes (f.withoutAt path keyword).json := fun hpointer hchild =>
    mem_nodes_of_edge hpointer hchild
  rw [Bool.eq_iff_iff, active_iff h' hpointer, active_iff h (hsubset hpointer)]
  constructor
  · rintro ⟨target, hleads, hchain⟩
    have hboth : target ∈ Outline.nodes (f.withoutAt path keyword).json
        ∧ Graph.Leads (Outline.edges f.json) pointer target := by
      clear hchain
      induction hleads with
      | refl => exact ⟨hpointer, .refl⟩
      | tail _ hstep ih =>
        exact ⟨hedge ih.1 hstep,
          ih.2.tail ((edge_withoutAt hkeyword herasable ih.1).2 (Or.inl hstep))⟩
    refine ⟨target, hboth.2, ?_⟩
    rwa [← chain_withoutAt hkeyword herasable h h' hboth.1]
  · rintro ⟨target, hleads, hchain⟩
    induction hleads using Relation.ReflTransGen.head_induction_on with
    | refl =>
      refine ⟨target, .refl, ?_⟩
      rwa [chain_withoutAt hkeyword herasable h h' hpointer]
    | @head pointer child hstep hrest ih =>
      rcases (edge_withoutAt hkeyword herasable hpointer).1 hstep with hkept | ⟨-, herased⟩
      · obtain ⟨goal, hgoal, hnames⟩ := ih (hedge hpointer hkept)
        exact ⟨goal, .head hkept hgoal, hnames⟩
      · have hchild := mem_nodes_of_edge (hsubset hpointer) hstep
        have hactive := (active_iff h hchild).2 ⟨target, hrest, hchain⟩
        rw [hidle pointer (hsubset hpointer) child herased] at hactive
        exact absurd hactive (by simp)

/-- The branches that are left have matchers if some branch of the whole is active. -/
lemma branches_withoutAt (hpointer : pointer ∈ Outline.nodes (f.withoutAt path keyword).json) :
    (plan'.node pointer).branches.map Prod.snd
      = (otherBranches (plan.node pointer)
          (Outline.erasedBranches f.json path keyword pointer)).map Prod.snd := by
  have hwhole := nodes_withoutAt_subset hkeyword herasable hpointer
  have hother : (otherBranches (plan.node pointer)
        (Outline.erasedBranches f.json path keyword pointer)).map Prod.snd
      = ((plan.node pointer).branches.map Prod.snd).filter
          fun branch => branch ∉ Outline.erasedBranches f.json path keyword pointer := by
    rw [otherBranches, List.filter_map]
    rfl
  have hany : ((plan'.node pointer).outline.branches.any fun branch => (plan'.node branch).active)
      = (plan.node pointer).outline.branches.any fun branch => (plan.node branch).active := by
    -- an active branch is not among the erased ones, which are idle, so it is left in the second plan
    rw [Bool.eq_iff_iff, List.any_eq_true, List.any_eq_true]
    have hleft : ∀ branch ∈ (plan'.node pointer).outline.branches,
        (plan'.node branch).active = (plan.node branch).active := by
      intro branch hbranch
      refine active_withoutAt hkeyword herasable h h' hidle ?_
      rw [outline_node h' hpointer] at hbranch
      exact mem_nodes_of_edge hpointer (Outline.branches_subset_children _ hbranch)
    have hmem : ∀ branch, branch ∈ (plan'.node pointer).outline.branches
        ↔ branch ∈ (plan.node pointer).outline.branches
          ∧ branch ∉ Outline.erasedBranches f.json path keyword pointer := by
      intro branch
      rw [outline_withoutAt hkeyword herasable h h' hpointer]
      simp [Outline.dropBranches]
    constructor
    · rintro ⟨branch, hbranch, hactive⟩
      exact ⟨branch, ((hmem branch).1 hbranch).1, (hleft branch hbranch).symm.trans hactive⟩
    · rintro ⟨branch, hbranch, hactive⟩
      have hkept := (hmem branch).2 ⟨hbranch, fun herased => by
        rw [hidle pointer hwhole branch herased] at hactive
        exact absurd hactive (by simp)⟩
      exact ⟨branch, hkept, (hleft branch hkept).trans hactive⟩
  rw [hother, branches_node h hwhole, branches_node h' hpointer, hany,
    outline_withoutAt hkeyword herasable h h' hpointer]
  split <;> rfl

/-- **The second plan is the first without the branches of the keyword.** -/
lemma drops_withoutAt
    (hschema : ∀ pointer ∈ Outline.nodes (f.withoutAt path keyword).json,
      plan'.parentSchema pointer = plan.parentSchema pointer
        ∨ ∀ entry ∈ (plan.node pointer).chain, entry.2.IgnoresSchema) :
    Drops plan plan' (Outline.nodes (f.withoutAt path keyword).json)
      (Outline.erasedBranches f.json path keyword) (decide (keyword = "anyOf")) := by
  have hsubset := nodes_withoutAt_subset hkeyword herasable
  have hpatterns : ∀ pointer ∈ Outline.nodes (f.withoutAt path keyword).json,
      patternMatchers build (plan'.node pointer).outline = .ok (plan'.node pointer).patterns :=
    fun pointer hpointer => (compiled_node h' hpointer).2.patterns
  refine
    { closed := fun pointer hpointer child hchild => ?_
      outline := fun pointer hpointer => outline_withoutAt hkeyword herasable h h' hpointer
      active := fun pointer hpointer => active_withoutAt hkeyword herasable h h' hidle hpointer
      chain := fun pointer hpointer => chain_withoutAt hkeyword herasable h h' hpointer
      patterns := fun pointer hpointer => ?_
      ruled := fun pointer hpointer pattern hpattern => ?_
      listed := fun pointer hpointer branch hbranch => ?_
      branches := fun pointer hpointer =>
        branches_withoutAt hkeyword herasable h h' hidle hpointer
      idle := fun pointer hpointer branch hbranch => ?_
      order := fun pointer hpointer => order_erased hkeyword h (hsubset hpointer)
      schema := hschema }
  · rw [outline_node h' hpointer] at hchild
    exact mem_nodes_of_edge hpointer hchild
  · have hsame := hpatterns pointer hpointer
    rw [outline_withoutAt hkeyword herasable h h' hpointer] at hsame
    exact Except.ok.inj (hsame.symm.trans (compiled_node h (hsubset hpointer)).2.patterns)
  · have hpointers := pointers_of_buildAll (hpatterns pointer hpointer)
    rw [List.map_map] at hpointers
    have hmem := List.mem_map_of_mem hpattern (f := Prod.snd)
    rwa [hpointers] at hmem
  · exact listed_of_mem_branches h' hpointer hbranch
  · have herased := (List.mem_filter.1 hbranch).2
    exact hidle pointer (hsubset hpointer) branch.2 (of_decide_eq_true herased)

end Left

/-! ## Decisions -/

/-- A branch or condition decides alike in two documents. -/
def DecidesAlike (build : MatcherBuilder) (document remaining origin : Json) (place : Pointer) : Prop :=
  ∀ matcher matcher', build (branchDocument document place) = .ok matcher →
    build (branchDocument remaining place) = .ok matcher' →
    matcher.accepts origin = matcher'.accepts origin

/-- What is the same as a document of its own decides alike. -/
lemma decidesAlike_of_eq {document remaining origin : Json} {place : Pointer}
    (h : branchDocument remaining place = branchDocument document place) :
    DecidesAlike build document remaining origin place := by
  intro matcher matcher' hmatcher hmatcher'
  rw [h, hmatcher] at hmatcher'
  rw [Except.ok.inj hmatcher']

lemma verdicts_eq {document remaining origin : Json} {branches branches' : List (Matcher × Pointer)}
    (hpointers : branches'.map Prod.snd = branches.map Prod.snd)
    (hbuilt : ∀ branch ∈ branches, build (branchDocument document branch.2) = .ok branch.1)
    (hbuilt' : ∀ branch ∈ branches', build (branchDocument remaining branch.2) = .ok branch.1)
    (hdecides : ∀ branch ∈ branches', DecidesAlike build document remaining origin branch.2) :
    (branches.map fun branch => branch.1.accepts origin)
      = branches'.map fun branch => branch.1.accepts origin := by
  induction branches generalizing branches' with
  | nil => rw [List.map_eq_nil_iff.1 hpointers]
  | cons branch branches ih =>
    cases branches' with
    | nil => simp at hpointers
    | cons branch' branches' =>
      simp only [List.map_cons, List.cons.injEq] at hpointers ⊢
      simp only [List.forall_mem_cons] at hbuilt hbuilt' hdecides
      exact ⟨hdecides.1 _ _ (hpointers.1 ▸ hbuilt.1) hbuilt'.1,
        ih hpointers.2 hbuilt.2 hbuilt'.2 hdecides.2⟩

section Decisions

variable (hkeyword : Outline.IsBranching keyword) (herasable : f.Erasable path keyword)
  (h : compile build f options = .ok plan)
  (h' : compile build (f.withoutAt path keyword) options = .ok plan')
  (hidle : ∀ pointer ∈ Outline.nodes f.json,
    ∀ branch ∈ Outline.erasedBranches f.json path keyword pointer, (plan.node branch).active = false)

include hkeyword herasable h h' hidle

/-- A condition is left where there was one, as what it selects is as active as before. -/
lemma isSome_condition_withoutAt
    (hpointer : pointer ∈ Outline.nodes (f.withoutAt path keyword).json) :
    (plan'.node pointer).condition.isSome = (plan.node pointer).condition.isSome := by
  have houtline := outline_withoutAt hkeyword herasable h h' hpointer
  have hfollowers : ((plan'.node pointer).outline.consequent.toList
        ++ (plan'.node pointer).outline.alternative.toList).any (fun node => (plan'.node node).active)
      = ((plan.node pointer).outline.consequent.toList
        ++ (plan.node pointer).outline.alternative.toList).any fun node => (plan.node node).active := by
    rw [houtline, Bool.eq_iff_iff, List.any_eq_true, List.any_eq_true]
    refine exists_congr fun node => and_congr_right fun hmem => ?_
    have hchild := Outline.followers_subset_children (plan'.node pointer).outline
      (by rw [houtline]; exact hmem)
    rw [outline_node h' hpointer] at hchild
    rw [active_withoutAt hkeyword herasable h h' hidle (mem_nodes_of_edge hpointer hchild)]
  rw [(condition_node h' hpointer).1, hfollowers,
    (condition_node h (nodes_withoutAt_subset hkeyword herasable hpointer)).1, houtline]
  rfl

/-- The condition decides alike, if its document does. -/
lemma condition_withoutAt (hpointer : pointer ∈ Outline.nodes (f.withoutAt path keyword).json)
    {origin : Json} (hdecides : ∀ place ∈ (plan'.node pointer).outline.condition.toList,
      DecidesAlike build f.json (f.withoutAt path keyword).json origin place) :
    (plan.node pointer).condition.map (·.accepts origin)
      = (plan'.node pointer).condition.map (·.accepts origin) := by
  have hsome := isSome_condition_withoutAt hkeyword herasable h h' hidle hpointer
  have hsame : (plan'.node pointer).outline.condition = (plan.node pointer).outline.condition := by
    rw [outline_withoutAt hkeyword herasable h h' hpointer]
    rfl
  cases hcondition : (plan.node pointer).condition with
  | none =>
    rw [hcondition, Option.isSome_none, Option.isSome_eq_false_iff, Option.isNone_iff_eq_none] at hsome
    rw [hsome]
  | some matcher =>
    rw [hcondition, Option.isSome_some, Option.isSome_iff_exists] at hsome
    obtain ⟨matcher', hmatcher'⟩ := hsome
    obtain ⟨place, hplace, hbuild⟩ := (condition_node h
      (nodes_withoutAt_subset hkeyword herasable hpointer)).2 matcher hcondition
    obtain ⟨place', hplace', hbuild'⟩ := (condition_node h' hpointer).2 matcher' hmatcher'
    obtain rfl : place = place' := by
      rwa [hsame, hplace, Option.some.injEq] at hplace'
    rw [hmatcher', Option.map_some, Option.map_some,
      hdecides place (Option.mem_toList.2 hplace') _ _ hbuild hbuild']

lemma unaffected_withoutAt {event : Event}
    (hnode : event.node ∈ Outline.nodes (f.withoutAt path keyword).json)
    (hdecides : ∀ place ∈ (plan'.node event.node).outline.branches
        ++ (plan'.node event.node).outline.condition.toList,
      DecidesAlike build f.json (f.withoutAt path keyword).json event.position.origin place)
    (hharmless : Harmless plan plan' (Outline.erasedBranches f.json path keyword event.node)
      (decide (keyword = "anyOf")) event) :
    Unaffected plan plan' (Outline.erasedBranches f.json path keyword) (decide (keyword = "anyOf"))
      event := by
  have hwhole := nodes_withoutAt_subset hkeyword herasable hnode
  refine
    { verdicts := verdicts_eq (branches_withoutAt hkeyword herasable h h' hidle hnode)
        (fun branch hbranch => built_of_mem_branches h hwhole (List.mem_filter.1 hbranch).1)
        (fun branch hbranch => built_of_mem_branches h' hnode hbranch)
        fun branch hbranch => hdecides branch.2
          (List.mem_append_left _ (listed_of_mem_branches h' hnode hbranch))
      condition := condition_withoutAt hkeyword herasable h h' hidle hnode
        fun place hplace => hdecides place (List.mem_append_right _ hplace)
      harmless := hharmless }

/-- Runs without the keyword lead to the same, if at the nodes that are left branches and conditions
decide alike and what is removed does not get in the way. -/
lemma run_alike_of_decidesAlike
    (hschema : ∀ pointer ∈ Outline.nodes (f.withoutAt path keyword).json,
      plan'.parentSchema pointer = plan.parentSchema pointer
        ∨ ∀ entry ∈ (plan.node pointer).chain, entry.2.IgnoresSchema)
    {steps : ℕ} {value : Json}
    (hdecides : ∀ event ∈ (plan'.traceRun steps value).events, event.stage = .union →
      event.node ∈ Outline.nodes (f.withoutAt path keyword).json →
      ∀ place ∈ (plan'.node event.node).outline.branches
          ++ (plan'.node event.node).outline.condition.toList,
        DecidesAlike build f.json (f.withoutAt path keyword).json event.position.origin place)
    (hharmless : ∀ event ∈ (plan'.traceRun steps value).events, event.stage = .union →
      Harmless plan plan' (Outline.erasedBranches f.json path keyword event.node)
        (decide (keyword = "anyOf")) event) :
    (plan.run steps value).Alike (plan'.run steps value) := by
  have hdrops := drops_withoutAt hkeyword herasable h h' hidle hschema
  refine hdrops.run_alike (Outline.mem_nodes_iff.2 .refl) fun event hevent hstage hnode => ?_
  exact unaffected_withoutAt hkeyword herasable h h' hidle hnode (hdecides event hevent hstage hnode)
    (hharmless event hevent hstage)

end Decisions

/-! ## Runs without the keyword -/

/-- **Branches of which none is active can be removed, unless they get in the way.**  A schema runs like
the one without the keyword at a place, if no branch listed there is active and those that accept a value
are harmless to the branches of the other keyword.  Beside that the removal itself must not tell: the
branches and conditions that are left decide alike, no reference leads to what is removed, and transforms
make no use of a schema that is changed. -/
theorem run_withoutAt_alike (hkeyword : Outline.IsBranching keyword)
    (herasable : f.Erasable path keyword) (h : compile build f options = .ok plan)
    (h' : compile build (f.withoutAt path keyword) options = .ok plan')
    (hidle : ∀ pointer ∈ Outline.nodes f.json,
      ∀ branch ∈ Outline.erasedBranches f.json path keyword pointer, (plan.node branch).active = false)
    (hschema : ∀ pointer ∈ Outline.nodes (f.withoutAt path keyword).json,
      plan'.parentSchema pointer = plan.parentSchema pointer
        ∨ ∀ entry ∈ (plan.node pointer).chain, entry.2.IgnoresSchema)
    (steps : ℕ) (value : Json)
    (hdecides : ∀ event ∈ (plan'.traceRun steps value).events, event.stage = .union →
      ∀ place ∈ (plan'.node event.node).outline.branches
          ++ (plan'.node event.node).outline.condition.toList,
        DecidesAlike build f.json (f.withoutAt path keyword).json event.position.origin place)
    (hharmless : ∀ event ∈ (plan'.traceRun steps value).events, event.stage = .union →
      Harmless plan plan' (Outline.erasedBranches f.json path keyword event.node)
        (decide (keyword = "anyOf")) event) :
    (plan.run steps value).Alike (plan'.run steps value) := by
  refine run_alike_of_decidesAlike hkeyword herasable h h' hidle hschema ?_ hharmless
  exact fun event hevent hstage _ => hdecides event hevent hstage

/-- A schema for numbers, which its `oneOf` rewrites, and for whatever else both keywords list. -/
def mixedSchema (others : List Json) : Fragment where
  keywords :=
    [("anyOf", .array (.object [("type", .string "number")] :: others)),
      ("oneOf", .array (.object [("transform", .array [.string "set"]), ("type", .string "number")]
        :: others))]

/-- Options with the transform of the schema. -/
def mixedOptions : Options where
  transforms := Table.ofPairs [("set", Transform.ofFunction fun _ => .ok (.int 2))]

/-- The schema of truth values. -/
def flagSchema : Json :=
  .object [("type", .string "boolean")]

/-- For a truth value the `anyOf` can be removed, as the branch of the `oneOf` is not active either. -/
theorem mixedSchema_keeps_flag : ∃ matcher plan plan',
    Matcher.build {} [] {} (mixedSchema [flagSchema]).json = .ok matcher
      ∧ matcher.accepts (.bool true) = true
      ∧ compile (Matcher.build {} [] {}) (mixedSchema [flagSchema]) mixedOptions = .ok plan
      ∧ compile (Matcher.build {} [] {}) ((mixedSchema [flagSchema]).withoutAt [] "anyOf") mixedOptions
        = .ok plan'
      ∧ (plan.run 8 (.bool true)).Alike (plan'.run 8 (.bool true)) := by
  have herasable : (mixedSchema [flagSchema]).Erasable [] "anyOf" :=
    ⟨by decide +kernel, by decide +kernel⟩
  have hfacts : (match Matcher.build {} [] {} (mixedSchema [flagSchema]).json,
        compile (Matcher.build {} [] {}) (mixedSchema [flagSchema]) mixedOptions,
        compile (Matcher.build {} [] {}) ((mixedSchema [flagSchema]).withoutAt [] "anyOf")
          mixedOptions with
      | .ok matcher, .ok plan, .ok plan' => decide (
        matcher.accepts (.bool true) = true
          ∧ (∀ pointer ∈ Outline.nodes (mixedSchema [flagSchema]).json,
            ∀ branch ∈ Outline.erasedBranches (mixedSchema [flagSchema]).json [] "anyOf" pointer,
              (plan.node branch).active = false)
          ∧ (∀ pointer ∈ Outline.nodes ((mixedSchema [flagSchema]).withoutAt [] "anyOf").json,
            plan'.parentSchema pointer = plan.parentSchema pointer
              ∨ (plan.node pointer).chain.isEmpty = true)
          ∧ (∀ event ∈ (plan'.traceRun 8 (.bool true)).events, event.stage = .union →
            ∀ place ∈ (plan'.node event.node).outline.branches
                ++ (plan'.node event.node).outline.condition.toList,
              branchDocument ((mixedSchema [flagSchema]).withoutAt [] "anyOf").json place
                = branchDocument (mixedSchema [flagSchema]).json place)
          ∧ ∀ event ∈ (plan'.traceRun 8 (.bool true)).events, event.stage = .union →
            ((plan'.node event.node).branches.find? fun branch =>
              branch.1.accepts event.position.origin).all
                (fun branch => !(plan'.node branch.2).active) = true)
      | _, _, _ => false) = true := by
    decide +kernel
  -- the facts are decided at once, as each of them is about the same two plans
  split at hfacts
  · rename_i matcher plan plan' hbuild h h'
    obtain ⟨haccepts, hidle, hschema, hdocuments, hfirst⟩ := of_decide_eq_true hfacts
    refine ⟨matcher, plan, plan', hbuild, haccepts, h, h', ?_⟩
    refine run_withoutAt_alike (Or.inl rfl) herasable h h' hidle (fun pointer hpointer => ?_) 8
      (.bool true) (fun event hevent hstage place hplace => ?_) fun event hevent hstage _ => ?_
    · refine (hschema pointer hpointer).imp id fun hchain entry hentry => ?_
      rw [List.isEmpty_iff.1 hchain] at hentry
      exact absurd hentry List.not_mem_nil
    · exact decidesAlike_of_eq (hdocuments event hevent hstage place hplace)
    · exact hfirst event hevent hstage
  · simp at hfacts

/-- For a number the branch of the `anyOf` is in the way: it is not active and accepts the number, so the
`oneOf` that would rewrite it is not tried. -/
theorem mixedSchema_leaves_number : ∃ matcher plan plan',
    Matcher.build {} [] {} (mixedSchema []).json = .ok matcher
      ∧ matcher.accepts (.int 1) = true
      ∧ compile (Matcher.build {} [] {}) (mixedSchema []) mixedOptions = .ok plan
      ∧ compile (Matcher.build {} [] {}) ((mixedSchema []).withoutAt [] "anyOf") mixedOptions
        = .ok plan'
      ∧ (∀ branch ∈ Outline.erasedBranches (mixedSchema []).json [] "anyOf" "",
        (plan.node branch).active = false)
      ∧ (plan.apply (.int 1)).outcome = .ok (.int 1)
      ∧ (plan'.apply (.int 1)).outcome = .ok (.int 2) := by
  have hfacts : (match Matcher.build {} [] {} (mixedSchema []).json,
        compile (Matcher.build {} [] {}) (mixedSchema []) mixedOptions,
        compile (Matcher.build {} [] {}) ((mixedSchema []).withoutAt [] "anyOf") mixedOptions with
      | .ok matcher, .ok plan, .ok plan' => decide (
        matcher.accepts (.int 1) = true
          ∧ (∀ branch ∈ Outline.erasedBranches (mixedSchema []).json [] "anyOf" "",
            (plan.node branch).active = false)
          ∧ (plan.apply (.int 1)).outcome = .ok (.int 1)
          ∧ (plan'.apply (.int 1)).outcome = .ok (.int 2))
      | _, _, _ => false) = true := by
    decide +kernel
  split at hfacts
  · rename_i matcher plan plan' hbuild h h'
    obtain ⟨haccepts, hfacts⟩ := of_decide_eq_true hfacts
    exact ⟨matcher, plan, plan', hbuild, haccepts, h, h', hfacts⟩
  · simp at hfacts

end Plan

end SchemaAlgebra
