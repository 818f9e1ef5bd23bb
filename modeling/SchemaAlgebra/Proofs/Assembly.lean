import Mathlib.Data.List.Forall2
import SchemaAlgebra.Proofs.Compilation
import SchemaAlgebra.Proofs.Nodes

/-!
# How plans are assembled

A compiled plan has its matchers where something active depends on them, and a node is active if it
leads to one with transforms.

* `Plan.assembled_node` — a node of a compiled plan is what is assembled of its chain.
* `Plan.active_iff` — which nodes are active.
* `Plan.branches_node` — which branches have matchers.
* `Plan.chain_congr` — the chain of a node depends on the names that its schema lists, and on what
  they stand for there.
-/

namespace SchemaAlgebra

namespace Plan

variable {build : MatcherBuilder} {schema : Fragment} {options : Options} {plan : Plan}
  {document : Json} {active : List Pointer} {pointer : Pointer} {node : PlanNode}

/-! ## Parts of a node -/

lemma parts_of_assembleNode {entry : Pointer × Chain}
    (h : assembleNode build document active entry = .ok node) :
    node.active = decide (entry.1 ∈ active)
      ∧ branchMatchers build document active node.outline = .ok node.branches
      ∧ conditionMatcher build document active node.outline = .ok node.condition := by
  obtain ⟨patterns, hpatterns, h⟩ := bind_eq_ok.1 h
  obtain ⟨branches, hbranches, h⟩ := bind_eq_ok.1 h
  obtain ⟨condition, hcondition, h⟩ := bind_eq_ok.1 h
  obtain rfl := Except.ok.inj h
  exact ⟨rfl, hbranches, hcondition⟩

/-- **Nodes of a compiled plan** are assembled, each of its chain. -/
lemma assembled_node (h : compile build schema options = .ok plan) :
    ∃ entries, chains schema options schema.json = .ok entries
      ∧ entries.map Prod.fst = Outline.nodes schema.json
      ∧ ∀ pointer ∈ Outline.nodes schema.json, (pointer, (plan.node pointer).chain) ∈ entries
        ∧ assembleNode build schema.json (activeNodes schema.json entries)
          (pointer, (plan.node pointer).chain) = .ok (plan.node pointer) := by
  have hcompile := h
  obtain ⟨entries, hentries, h⟩ := bind_eq_ok.1 h
  obtain ⟨nodes, hnodes, h⟩ := bind_eq_ok.1 h
  obtain rfl := Except.ok.inj h
  refine ⟨entries, hentries, ?_, fun pointer hpointer => ?_⟩
  · have hpointers : List.Forall₂ (fun pointer entry => pointer = entry.1)
        (Outline.nodes schema.json) entries := by
      refine (mapM_forall₂ hentries).imp fun pointer entry hentry => ?_
      obtain ⟨_, _, hentry⟩ := bind_eq_ok.1 hentry
      obtain rfl := Except.ok.inj hentry
      rfl
    rw [← List.forall₂_map_right_iff, List.forall₂_eq_eq_eq] at hpointers
    exact hpointers.symm
  · obtain ⟨hmem, hcompiled⟩ := compiled_node hcompile hpointer
    obtain ⟨⟨other, chain⟩, hentry, hnode⟩ := (mapM_eq_ok hnodes).2 _ hmem
    obtain ⟨houtline, hchain, -⟩ := assembleNode_ok hnode
    have hother : other = pointer := by
      rw [← hcompiled.pointer_eq, houtline, pointer_read]
    subst hother
    rw [hchain]
    exact ⟨hentry, hnode⟩

/-! ## Active nodes -/

/-- The chain that is known of a node is the one it has. -/
lemma chain_of_mem_entries (h : compile build schema options = .ok plan)
    {entries : List (Pointer × Chain)} (hentries : chains schema options schema.json = .ok entries)
    {entry : Pointer × Chain} (hentry : entry ∈ entries) : (plan.node entry.1).chain = entry.2 := by
  obtain ⟨pointer, hpointer, hread⟩ := (mapM_eq_ok hentries).2 entry hentry
  obtain ⟨chain, hchain, hread⟩ := bind_eq_ok.1 hread
  obtain rfl := Except.ok.inj hread
  exact Except.ok.inj ((compiled_node h hpointer).2.chain.symm.trans hchain)

/-- **Active nodes** are those that lead to one with transforms. -/
lemma active_iff (h : compile build schema options = .ok plan)
    (hpointer : pointer ∈ Outline.nodes schema.json) : (plan.node pointer).active = true
      ↔ ∃ target, Graph.Leads (Outline.edges schema.json) pointer target
        ∧ (plan.node target).chain ≠ [] := by
  obtain ⟨entries, hentries, hpointers, hall⟩ := assembled_node h
  have hknown : ∀ target, target ∈ (entries.filter fun entry => !entry.2.isEmpty).map Prod.fst
      ↔ target ∈ Outline.nodes schema.json ∧ (plan.node target).chain ≠ [] := by
    intro target
    simp only [List.mem_map, List.mem_filter, Bool.not_eq_true', List.isEmpty_eq_false_iff]
    constructor
    · rintro ⟨entry, ⟨hentry, hchain⟩, rfl⟩
      rw [chain_of_mem_entries h hentries hentry]
      exact ⟨hpointers ▸ List.mem_map_of_mem hentry, hchain⟩
    · rintro ⟨htarget, hchain⟩
      exact ⟨_, ⟨(hall target htarget).1, hchain⟩, rfl⟩
  have hclosed : ∀ pointer ∈ Outline.nodes schema.json,
      Outline.edges schema.json pointer ⊆ Outline.nodes schema.json := fun pointer hpointer child hchild =>
    Outline.mem_nodes_iff.2 ((Outline.mem_nodes_iff.1 hpointer).tail hchild)
  rw [(parts_of_assembleNode (hall pointer hpointer).2).1, decide_eq_true_iff, activeNodes, hpointers]
  refine (Graph.mem_reaching_iff hclosed hpointer).trans ⟨?_, ?_⟩
  · rintro ⟨target, htarget, hleads⟩
    exact ⟨target, hleads, ((hknown target).1 htarget).2⟩
  · rintro ⟨target, hleads, hchain⟩
    exact ⟨target, (hknown target).2 ⟨Graph.mem_of_leads hclosed hpointer hleads, hchain⟩, hleads⟩

/-! ## Matchers -/

lemma pointers_of_buildAll {documents : List (Json × Pointer)} {matchers : List (Matcher × Pointer)}
    (h : buildAll build documents = .ok matchers) :
    matchers.map Prod.snd = documents.map Prod.snd := by
  have hpointers : List.Forall₂ (fun source built => source.2 = built.2) documents matchers := by
    refine (mapM_forall₂ h).imp fun source built hbuilt => ?_
    obtain ⟨matcher, -, hbuilt⟩ := bind_eq_ok.1 hbuilt
    obtain rfl := Except.ok.inj hbuilt
    rfl
  have heq := List.forall₂_map_left_iff.2 (List.forall₂_map_right_iff.2 hpointers)
  rw [List.forall₂_eq_eq_eq] at heq
  exact heq.symm

/-- The matchers of a node, and that they are built if something active depends on them. -/
lemma matchers_node (h : compile build schema options = .ok plan)
    (hpointer : pointer ∈ Outline.nodes schema.json) : ∃ active : List Pointer,
      (∀ nodes ⊆ (plan.node pointer).outline.children,
        (nodes.any fun node => node ∈ active) = nodes.any fun node => (plan.node node).active)
      ∧ branchMatchers build schema.json active (plan.node pointer).outline
          = .ok (plan.node pointer).branches
      ∧ conditionMatcher build schema.json active (plan.node pointer).outline
          = .ok (plan.node pointer).condition := by
  obtain ⟨entries, -, -, hall⟩ := assembled_node h
  have hparts := fun pointer hpointer => parts_of_assembleNode (hall pointer hpointer).2
  refine ⟨_, fun nodes hnodes => ?_, (hparts pointer hpointer).2⟩
  rw [Bool.eq_iff_iff, List.any_eq_true, List.any_eq_true]
  refine exists_congr fun node => and_congr_right fun hnode => ?_
  have hchild := hnodes hnode
  rw [outline_node h hpointer] at hchild
  rw [(hparts node (Outline.mem_nodes_iff.2 ((Outline.mem_nodes_iff.1 hpointer).tail hchild))).1]

/-- **Branches** have matchers if one of them is active. -/
lemma branches_node (h : compile build schema options = .ok plan)
    (hpointer : pointer ∈ Outline.nodes schema.json) :
    (plan.node pointer).branches.map Prod.snd
      = if (plan.node pointer).outline.branches.any fun branch => (plan.node branch).active then
          (plan.node pointer).outline.branches
        else [] := by
  obtain ⟨active, hactive, hbranches, -⟩ := matchers_node h hpointer
  rw [branchMatchers] at hbranches
  rw [← hactive _ (Outline.branches_subset_children _)]
  split at hbranches
  · rename_i hany
    rw [if_pos hany, pointers_of_buildAll hbranches, List.map_map]
    exact List.map_id _
  · rename_i hnone
    rw [if_neg hnone, ← Except.ok.inj hbranches]
    rfl

lemma listed_of_mem_branches (h : compile build schema options = .ok plan)
    (hpointer : pointer ∈ Outline.nodes schema.json) {branch : Matcher × Pointer}
    (hbranch : branch ∈ (plan.node pointer).branches) :
    branch.2 ∈ (plan.node pointer).outline.branches := by
  have hmem := List.mem_map_of_mem hbranch (f := Prod.snd)
  rw [branches_node h hpointer] at hmem
  split at hmem
  · exact hmem
  · exact absurd hmem List.not_mem_nil

/-- The matcher of a branch is built of what stands there. -/
lemma built_of_mem_branches (h : compile build schema options = .ok plan)
    (hpointer : pointer ∈ Outline.nodes schema.json) {branch : Matcher × Pointer}
    (hbranch : branch ∈ (plan.node pointer).branches) :
    build (branchDocument schema.json branch.2) = .ok branch.1 := by
  obtain ⟨active, -, hbranches, -⟩ := matchers_node h hpointer
  rw [branchMatchers] at hbranches
  split at hbranches
  · obtain ⟨source, hsource, hbuilt⟩ := (mapM_eq_ok hbranches).2 branch hbranch
    obtain ⟨child, -, rfl⟩ := List.mem_map.1 hsource
    obtain ⟨matcher, hmatcher, hbuilt⟩ := bind_eq_ok.1 hbuilt
    obtain rfl := Except.ok.inj hbuilt
    exact mapError_eq_ok.1 hmatcher
  · rw [← Except.ok.inj hbranches] at hbranch
    exact absurd hbranch List.not_mem_nil

/-- **The condition** has a matcher if a node that follows it is active. -/
lemma condition_node (h : compile build schema options = .ok plan)
    (hpointer : pointer ∈ Outline.nodes schema.json) :
    ((plan.node pointer).condition.isSome = ((plan.node pointer).outline.condition.isSome
        && ((plan.node pointer).outline.consequent.toList
          ++ (plan.node pointer).outline.alternative.toList).any fun node => (plan.node node).active))
      ∧ ∀ matcher, (plan.node pointer).condition = some matcher →
        ∃ place, (plan.node pointer).outline.condition = some place
          ∧ build (branchDocument schema.json place) = .ok matcher := by
  obtain ⟨active, hactive, -, hcondition⟩ := matchers_node h hpointer
  rw [← hactive _ (Outline.followers_subset_children _)]
  rw [conditionMatcher] at hcondition
  split at hcondition
  · rename_i place hplace
    split at hcondition
    · rename_i hfollows
      obtain ⟨matcher, hmatcher, hcondition⟩ := bind_eq_ok.1 hcondition
      rw [hplace, hfollows, ← Except.ok.inj hcondition]
      refine ⟨rfl, fun other hother => ⟨place, rfl, ?_⟩⟩
      rw [← Option.some.inj hother]
      exact mapError_eq_ok.1 hmatcher
    · rename_i hfollows
      rw [← Except.ok.inj hcondition, Bool.eq_false_iff.2 hfollows, Bool.and_false]
      exact ⟨rfl, fun matcher h => by simp at h⟩
  · rename_i hnone
    rw [hnone, ← Except.ok.inj hcondition]
    exact ⟨rfl, fun matcher h => by simp at h⟩

/-! ## Chains -/

lemma some_of_resolveChain {items : List Json} {chain : Chain}
    (h : resolveChain schema options pointer items = .ok chain) :
    chain.map some = (items.map fun item => (item.string?).getD "").map fun name =>
      (transform? schema options pointer name).map fun transform => (name, transform) := by
  induction items generalizing chain with
  | nil =>
    rw [← Except.ok.inj h]
    rfl
  | cons item items ih =>
    rw [resolveChain] at h
    split at h
    · simp at h
    · rename_i transform htransform
      obtain ⟨rest, hrest, h⟩ := bind_eq_ok.1 h
      rw [← Except.ok.inj h]
      simp only [List.map_cons, ih hrest, htransform, Option.map_some]

/-- **The chain of a node** depends on the names that its schema lists, and on what they stand for. -/
lemma chain_congr {other : Fragment} {remaining : Json} {chain chain' : Chain}
    (h : chainAt schema options document pointer = .ok chain)
    (h' : chainAt other options remaining pointer = .ok chain')
    (hnames : transformNames remaining pointer = transformNames document pointer)
    (htransform : transform? other options pointer = transform? schema options pointer) :
    chain' = chain := by
  obtain ⟨items, hitems, hlisted⟩ := resolveChain_of_chainAt h
  obtain ⟨items', hitems', hlisted'⟩ := resolveChain_of_chainAt h'
  have hboth : chain'.map some = chain.map some := by
    rw [some_of_resolveChain hitems, some_of_resolveChain hitems', ← hlisted, ← hlisted', hnames,
      htransform]
  exact List.map_injective_iff.2 (fun _ _ => Option.some.inj) hboth

end Plan

end SchemaAlgebra
