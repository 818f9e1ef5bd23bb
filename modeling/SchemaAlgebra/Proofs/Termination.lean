import Mathlib.Data.Finset.Card
import Mathlib.Data.Prod.Lex
import Mathlib.Logic.Relation
import Mathlib.Order.WellFounded
import SchemaAlgebra.Proofs.Ending

/-!
# When the transform pass ends

A node hands its value on to other nodes: first its members and items, then the value itself, to the
conjuncts, the branches and what a condition selects, stage by stage.  Schemas may go in circles, so
the question is what becomes less on the way round.

* What is inside the value as it arrived at a position is less deep than the value.  But a node of a
  later stage gets the value as the stages before left it, and so does a member that an earlier rule
  has handed on.  Those nodes are `Late`.
* A node is `Calm` if no transform that it leads to returns a value deeper than the one it is given.

**`Plan.run_ends`** — the pass ends on every value if the late nodes that lead back are those of calm
nodes.  `endless_never_ends` shows a schema of three lines on which it never does.
-/

namespace SchemaAlgebra

/-- A transform that never returns a value deeper than the one it is given. -/
def Transform.Shallow (transform : Transform) : Prop :=
  ∀ context value result,
    (transform context value).outcome = .ok result → result.depth ≤ value.depth

namespace PlanNode

/-- The nodes that members and items go to. -/
def insideNodes (node : PlanNode) : List Pointer :=
  node.memberRules.map Prod.snd ++ Outline.itemNodes node.outline.items
    ++ node.outline.additionalItems.toList

/-- The stages in which a node hands its value on.  The nodes of one stage get the value as the
stages before left it. -/
def stages (node : PlanNode) : List (List Pointer) :=
  node.insideNodes :: node.outline.conjuncts.map (fun conjunct => [conjunct])
    ++ [node.branches.map Prod.snd,
      node.outline.consequent.toList ++ node.outline.alternative.toList]

end PlanNode

namespace Plan

open Pass

/-- Whether the node with a pointer is active. -/
def isActive (plan : Plan) (pointer : Pointer) : Bool :=
  (plan.node pointer).active

/-- A node hands its value, or a part of it, on to another. -/
def HandsOn (plan : Plan) (a b : Pointer) : Prop :=
  ∃ stage ∈ (plan.node a).stages, b ∈ stage

/-- A node leads to another, in any number of steps. -/
def LeadsTo (plan : Plan) : Pointer → Pointer → Prop :=
  Relation.ReflTransGen plan.HandsOn

/-- **Late nodes.**  What the node hands on to them may have been rewritten at the same position, as
something active was there before. -/
inductive Late (plan : Plan) (node : PlanNode) : Pointer → Prop
  /-- A stage comes after one with an active node. -/
  | stage {before stage after earlier b c} : node.stages = before ++ stage :: after →
      earlier ∈ before → b ∈ earlier → plan.isActive b = true → c ∈ stage → Late plan node c
  /-- A rule comes after one that hands on to an active node a member with the same key. -/
  | member {before rule after earlier key} : node.memberRules = before ++ rule :: after →
      earlier ∈ before → plan.isActive earlier.2 = true → earlier.1 key = true →
      rule.1 key = true → Late plan node rule.2

/-- **Calm nodes.**  No transform that the node leads to makes its value deeper. -/
def Calm (plan : Plan) (pointer : Pointer) : Prop :=
  ∀ b, plan.LeadsTo pointer b → ∀ entry ∈ (plan.node b).chain, entry.2.Shallow

/-! ## One visit -/

variable {plan : Plan} {visit : ℕ → Visit} {node : PlanNode} {at_ : Position}

lemma runChain_finished (value : Json) : (plan.runChain node at_ value).Finished := by
  simp only [Finished, runChain]
  split <;> simp

lemma mem_followers_of_selected? {origin : Json} {c : Pointer}
    (h : selected? node origin = some c) :
    c ∈ node.outline.consequent.toList ++ node.outline.alternative.toList := by
  obtain ⟨matcher, _, hc⟩ := Option.bind_eq_some_iff.1 h
  split at hc
  · exact List.mem_append_left _ (Option.mem_toList.2 hc)
  · exact List.mem_append_right _ (Option.mem_toList.2 hc)

lemma ends_visitEach {I : List Pointer → Json → Prop} {value : Json} {seen : List Pointer}
    (nodes : List Pointer) (hstart : I [] value)
    (hvisit : ∀ before c after value seen', nodes = before ++ c :: after → I before value →
      seen ⊆ seen' → Ends (fun steps => visit steps c at_ value seen')
        fun r => I (before ++ [c]) r.1 ∧ seen' ⊆ r.2) :
    Ends (fun steps => visitEach (visit steps) at_ nodes value seen)
      fun r => I nodes r.1 ∧ seen ⊆ r.2 := by
  refine Ends.foldlM (I := fun before (r : Json × List Pointer) => I before r.1 ∧ seen ⊆ r.2)
    nodes (value, seen) ⟨hstart, fun _ h => h⟩ ?_
  rintro before c after ⟨value, seen'⟩ hnodes ⟨hI, hseen⟩
  exact (hvisit before c after value seen' hnodes hI hseen).imp fun r hr =>
    ⟨hr.1, fun _ h => hr.2 (hseen h)⟩

/-- **Stage by stage.**  `I` relates the stages that are done to the value they left. -/
lemma ends_visitNode {I : List (List Pointer) → Json → Prop} {Q : Json → Prop} {value : Json}
    {seen : List Pointer}
    (hinside : Ends (fun steps => visitInside (visit steps) node at_ value) (I [node.insideNodes]))
    (hkeep : ∀ before stage value, I before value → I (before ++ [stage]) value)
    (hvisit : ∀ before stage after c value seen', node.stages = before ++ stage :: after →
      c ∈ stage → I before value → seen ⊆ seen' →
      Ends (fun steps => visit steps c at_ value seen')
        fun r => I (before ++ [stage]) r.1 ∧ seen' ⊆ r.2)
    (hchain : ∀ value result, I node.stages value →
      (plan.runChain node at_ value).outcome = .ok result → Q result) :
    Ends (fun steps => plan.visitNode (visit steps) node at_ value seen)
      fun r => Q r.1 ∧ seen ⊆ r.2 := by
  set conjunctStages := node.outline.conjuncts.map fun conjunct => [conjunct] with hconjuncts
  set branchStage := node.branches.map Prod.snd with hbranches
  set lastStage := node.outline.consequent.toList ++ node.outline.alternative.toList with hlast
  have hstages : node.stages
      = node.insideNodes :: conjunctStages ++ [branchStage, lastStage] := rfl
  -- the invariant goes along with the stages, in the order in which the visit takes them
  refine hinside.bind fun value hI => ?_
  refine (ends_visitEach (I := fun before => I (node.insideNodes :: before.map fun c => [c]))
    node.outline.conjuncts hI ?_).bind ?_
  · intro before c after value seen' hnodes hI hseen
    have := hvisit (node.insideNodes :: before.map fun c => [c]) [c]
      ((after.map fun c => [c]) ++ [branchStage, lastStage]) c value seen'
      (by rw [hstages, hconjuncts, hnodes]; simp) (by simp) hI hseen
    simpa using this
  rintro ⟨value, seen₁⟩ ⟨hI, hseen₁⟩
  refine (ends_tryBranches (Q := I (node.insideNodes :: conjunctStages ++ [branchStage]))
    (hkeep _ _ _ hI) node.branches [] fun branch hbranch => ?_).bind fun value hI => ?_
  · exact (hvisit (node.insideNodes :: conjunctStages) branchStage [lastStage] branch.2 value seen₁
      hstages (List.mem_map_of_mem hbranch) hI hseen₁).imp fun r hr => hr.1
  refine (ends_visitEach (I := fun before => I (node.insideNodes :: conjunctStages ++ [branchStage]
    ++ before.map fun _ => lastStage)) (selected? node at_.origin).toList (by simpa using hI)
    ?_).bind ?_
  · intro before c after value seen' hnodes hI hseen
    -- a condition selects one node at most, so nothing comes before it in its stage
    obtain ⟨rfl, hselected⟩ : before = [] ∧ selected? node at_.origin = some c := by
      cases hsel : selected? node at_.origin with
      | none => simp [hsel] at hnodes
      | some d => cases before <;> simp_all
    have := hvisit (node.insideNodes :: conjunctStages ++ [branchStage]) lastStage [] c value seen'
      (by simp [hstages]) (mem_followers_of_selected? hselected) (by simpa using hI)
      (fun _ h => hseen (hseen₁ h))
    simpa using this
  rintro ⟨value, seen₂⟩ ⟨hI, hseen₂⟩
  have hI : I node.stages value := by
    cases hsel : selected? node at_.origin with
    | none =>
      have := hkeep _ lastStage _ (by simpa [hsel] using hI)
      simpa [hstages] using this
    | some c => simpa [hsel, hstages] using hI
  refine (ends_const (runChain_finished value) fun result h => hchain value result hI h).bind
    fun result hQ => ends_done ⟨hQ, fun _ h => hseen₂ (hseen₁ h)⟩

lemma ends_visit {pointer : Pointer} {value : Json} {seen : List Pointer} {Q : Json → Prop}
    (hskip : plan.isActive pointer = false ∨ pointer ∈ seen → Q value)
    (hnode : plan.isActive pointer = true → pointer ∉ seen →
      Ends (fun steps => plan.visitNode (plan.visit steps) (plan.node pointer) at_ value
        (pointer :: seen)) fun r => Q r.1 ∧ pointer :: seen ⊆ r.2) :
    Ends (fun steps => plan.visit steps pointer at_ value seen) fun r => Q r.1 ∧ seen ⊆ r.2 := by
  refine Ends.of_succ ?_
  by_cases hseen : plan.isActive pointer = true ∧ pointer ∉ seen
  · have hstep : ∀ steps, plan.visit (steps + 1) pointer at_ value seen
        = plan.visitNode (plan.visit steps) (plan.node pointer) at_ value (pointer :: seen) := by
      intro steps
      have hactive : (plan.node pointer).active = true := hseen.1
      simp [visit, hactive, hseen.2]
    simp only [hstep]
    exact (hnode hseen.1 hseen.2).imp fun r hr => ⟨hr.1, fun _ h => hr.2 (List.mem_cons_of_mem _ h)⟩
  · have hskipped : plan.isActive pointer = false ∨ pointer ∈ seen := by
      by_contra hnot
      simp only [not_or, Bool.not_eq_false] at hnot
      exact hseen hnot
    have hstep : ∀ steps, plan.visit (steps + 1) pointer at_ value seen = done (value, seen) := by
      intro steps
      rcases hskipped with h | h
      · have hactive : (plan.node pointer).active = false := h
        simp [visit, hactive]
      · simp [visit, h]
    simp only [hstep]
    exact ends_done ⟨hskip hskipped, fun _ h => h⟩

/-! ## What a node hands on to -/

lemma mem_insideNodes_of_rule {rule : (String → Bool) × Pointer} (h : rule ∈ node.memberRules) :
    rule.2 ∈ node.insideNodes :=
  List.mem_append_left _ (List.mem_append_left _ (List.mem_map_of_mem h))

lemma mem_insideNodes_of_item {index : ℕ} {child : Pointer}
    (h : node.outline.itemNode? index = some child) : child ∈ node.insideNodes := by
  unfold Outline.itemNode? at h
  simp only [PlanNode.insideNodes, List.append_assoc, List.mem_append]
  right
  split at h
  · simp at h
  · rename_i each hitems
    simp_all [Outline.itemNodes]
  · rename_i listed hitems
    rcases Option.or_eq_some_iff.1 h with h | ⟨-, h⟩
    · exact Or.inl (by rw [hitems]; exact List.mem_of_getElem? h)
    · exact Or.inr (Option.mem_toList.2 h)

lemma insideNodes_mem_stages : node.insideNodes ∈ node.stages :=
  List.mem_cons_self

/-! ## The nodes left to visit -/

/-- The pointers of the nodes. -/
def pointers (plan : Plan) : Finset Pointer :=
  (plan.nodes.map fun node => node.outline.pointer).toFinset

/-- How many nodes have not been visited. -/
def unvisitedCount (plan : Plan) (seen : List Pointer) : ℕ :=
  (plan.pointers \ seen.toFinset).card

lemma mem_pointers_of_isActive {pointer : Pointer} (h : plan.isActive pointer = true) :
    pointer ∈ plan.pointers := by
  rcases plan.node_mem_or_eq pointer with ⟨hmem, hpointer⟩ | hnode
  · exact List.mem_toFinset.2 (List.mem_map.2 ⟨_, hmem, hpointer⟩)
  · simp [isActive, hnode] at h

lemma unvisitedCount_lt_of_mem {pointer : Pointer} {seen seen' : List Pointer}
    (hmem : pointer ∈ plan.pointers) (hnew : pointer ∉ seen) (hseen : pointer :: seen ⊆ seen') :
    plan.unvisitedCount seen' < plan.unvisitedCount seen := by
  refine Finset.card_lt_card (Finset.ssubset_iff_of_subset ?_ |>.2 ⟨pointer, ?_, ?_⟩)
  · refine Finset.sdiff_subset_sdiff (Finset.Subset.refl _) fun p hp => ?_
    exact List.mem_toFinset.2 (hseen (List.mem_cons_of_mem _ (List.mem_toFinset.1 hp)))
  · simpa [hnew] using hmem
  · simp [hseen List.mem_cons_self]

lemma unvisitedCount_lt {pointer : Pointer} {seen seen' : List Pointer}
    (hactive : plan.isActive pointer = true) (hnew : pointer ∉ seen)
    (hseen : pointer :: seen ⊆ seen') : plan.unvisitedCount seen' < plan.unvisitedCount seen :=
  unvisitedCount_lt_of_mem (mem_pointers_of_isActive hactive) hnew hseen

open Classical in
/-- How many nodes a node leads to. -/
noncomputable def reach (plan : Plan) (pointer : Pointer) : ℕ :=
  (plan.pointers.filter (plan.LeadsTo pointer)).card

lemma reach_le {a b : Pointer} (h : plan.LeadsTo a b) : plan.reach b ≤ plan.reach a := by
  classical
  refine Finset.card_le_card fun p hp => ?_
  simp only [Finset.mem_filter] at hp ⊢
  exact ⟨hp.1, h.trans hp.2⟩

lemma reach_lt {a b : Pointer} (hactive : plan.isActive a = true) (h : plan.LeadsTo a b)
    (hback : ¬ plan.LeadsTo b a) : plan.reach b < plan.reach a := by
  classical
  refine Finset.card_lt_card (Finset.ssubset_iff_of_subset (fun p hp => ?_) |>.2 ⟨a, ?_, ?_⟩)
  · simp only [Finset.mem_filter] at hp ⊢
    exact ⟨hp.1, h.trans hp.2⟩
  · exact Finset.mem_filter.2 ⟨mem_pointers_of_isActive hactive, Relation.ReflTransGen.refl⟩
  · exact fun hmem => hback (Finset.mem_filter.1 hmem).2

/-! ## Calm nodes -/

lemma runFunctions_depth_le {context : String → TransformContext} {chain : Chain}
    (h : ∀ entry ∈ chain, entry.2.Shallow) {value result : Json}
    (hrun : (runFunctions context chain value).outcome = .ok result) :
    result.depth ≤ value.depth := by
  induction chain generalizing value with
  | nil =>
    have hvalue : value = result := by simpa [runFunctions] using hrun
    exact hvalue ▸ Nat.le_refl _
  | cons entry chain ih =>
    obtain ⟨name, transform⟩ := entry
    simp only [runFunctions] at hrun
    cases hcall : (transform (context name) value).outcome with
    | error failure => simp [hcall] at hrun
    | ok next =>
      simp only [hcall] at hrun
      calc result.depth
          ≤ next.depth := ih (fun entry hentry => h entry (List.mem_cons_of_mem _ hentry)) hrun
        _ ≤ value.depth := h _ List.mem_cons_self _ _ _ hcall

lemma runFunctions_of_runChain {value result : Json}
    (h : (plan.runChain node at_ value).outcome = .ok result) :
    ∃ context, (runFunctions context node.chain value).outcome = .ok result := by
  refine ⟨fun name => ⟨name, at_.path, at_.key, plan.parentSchema node.outline.pointer⟩, ?_⟩
  simp only [runChain] at h
  split at h
  · simp at h
  · rename_i last hlast
    simpa [hlast] using h

lemma Calm.of_leadsTo {a b : Pointer} (ha : plan.Calm a) (h : plan.LeadsTo a b) : plan.Calm b :=
  fun c hc => ha c (h.trans hc)

lemma leadsTo_of_mem_stage {a c : Pointer} {stage : List Pointer}
    (hstage : stage ∈ (plan.node a).stages) (hc : c ∈ stage) : plan.LeadsTo a c :=
  Relation.ReflTransGen.single ⟨stage, hstage, hc⟩

lemma leadsTo_of_mem_inside {a c : Pointer} (hc : c ∈ (plan.node a).insideNodes) :
    plan.LeadsTo a c :=
  leadsTo_of_mem_stage insideNodes_mem_stages hc

lemma membersDepth_le {members results : Entries Json}
    (h : Related (fun member result => result.depth ≤ member.2.depth) members results) :
    Json.membersDepth results ≤ Json.membersDepth members := by
  induction h with
  | nil => exact Nat.le_refl _
  | @cons _ _ members results hmember _ ih => exact max_le_max hmember.2 ih

lemma itemsDepth_le {items results : List Json}
    (h : List.Forall₂ (fun item result => result.depth ≤ item.depth) items results) :
    Json.itemsDepth results ≤ Json.itemsDepth items := by
  induction h with
  | nil => exact Nat.le_refl _
  | @cons _ _ items results hitem _ ih => exact max_le_max hitem ih

/-- Inside a value of a calm node everything is less deep than the value, whatever rules are applied
to it one after another. -/
lemma ends_visitInside_of_depth_le {value : Json}
    (hvisit : ∀ c ∈ node.insideNodes, ∀ at_ current, current.depth < value.depth →
      Ends (fun steps => visit steps c at_ current []) fun r => r.1.depth ≤ current.depth) :
    Ends (fun steps => visitInside (visit steps) node at_ value) fun r => r.depth ≤ value.depth := by
  cases value with
  | object members =>
    refine (ends_visitInside_object
      (S := fun _ member result => result.depth ≤ member.2.depth)
      (fun member _ => Nat.le_refl _) (fun _ _ _ _ _ _ _ _ h => h) ?_).imp ?_
    · intro before rule after member current hrules hmember _ hcurrent
      have hrule : rule ∈ node.memberRules := by simp [hrules]
      have hdepth : current.depth < (Json.object members).depth :=
        Nat.lt_succ_of_le (le_trans hcurrent (Json.depth_le_of_mem_members hmember))
      exact (hvisit rule.2 (mem_insideNodes_of_rule hrule) _ current hdepth).imp fun r hr =>
        le_trans hr hcurrent
    · rintro _ ⟨results, rfl, hresults⟩
      exact Nat.succ_le_succ (membersDepth_le hresults)
  | array items =>
    refine (ends_visitInside_array (S := fun item result => result.depth ≤ item.depth)
      (fun _ _ _ _ => Nat.le_refl _) ?_).imp ?_
    · intro item hitem index child hchild
      have hdepth : item.depth < (Json.array items).depth :=
        Nat.lt_succ_of_le (Json.depth_le_of_mem_items hitem)
      exact hvisit child (mem_insideNodes_of_item hchild) _ item hdepth
    · rintro _ ⟨results, rfl, hresults⟩
      exact Nat.succ_le_succ (itemsDepth_le hresults)
  | _ => exact ends_done (Nat.le_refl _)

/-- **Calm nodes.**  Going in circles, the value gets less deep, or there is one node less to visit
at its position. -/
lemma ends_visit_of_calm {pointer : Pointer} {value : Json} {seen : List Pointer}
    (hcalm : plan.Calm pointer) :
    Ends (fun steps => plan.visit steps pointer at_ value seen)
      fun r => r.1.depth ≤ value.depth ∧ seen ⊆ r.2 := by
  induction hmeasure : toLex (value.depth, plan.unvisitedCount seen)
    using WellFoundedLT.induction generalizing pointer at_ value seen with
  | ind measure ih =>
    subst hmeasure
    refine ends_visit (Q := fun result => result.depth ≤ value.depth) (fun _ => Nat.le_refl _)
      fun hactive hnew => ?_
    refine ends_visitNode (I := fun _ current => current.depth ≤ value.depth)
      (Q := fun result => result.depth ≤ value.depth) ?_ (fun _ _ _ h => h) ?_ ?_
    · refine ends_visitInside_of_depth_le fun c hc at_ current hcurrent => ?_
      exact (ih _ (Prod.Lex.toLex_lt_toLex.2 (Or.inl hcurrent))
        (hcalm.of_leadsTo (leadsTo_of_mem_inside hc)) rfl).imp fun r hr => hr.1
    · intro before stage after c current seen' hstages hc hcurrent hseen
      have hstage : stage ∈ (plan.node pointer).stages := by simp [hstages]
      have hsmaller : toLex (current.depth, plan.unvisitedCount seen')
          < toLex (value.depth, plan.unvisitedCount seen) := by
        rw [Prod.Lex.toLex_lt_toLex]
        rcases lt_or_eq_of_le hcurrent with h | h
        · exact Or.inl h
        · exact Or.inr ⟨h, unvisitedCount_lt hactive hnew hseen⟩
      exact (ih _ hsmaller (hcalm.of_leadsTo (leadsTo_of_mem_stage hstage hc)) rfl).imp fun r hr =>
        ⟨le_trans hr.1 hcurrent, hr.2⟩
    · intro current result hcurrent hrun
      obtain ⟨context, hrun⟩ := runFunctions_of_runChain hrun
      exact le_trans (runFunctions_depth_le (hcalm pointer Relation.ReflTransGen.refl) hrun) hcurrent

/-! ## All nodes -/

/-- No late node leads back to the node that hands on to it, unless that node is calm. -/
def Settles (plan : Plan) : Prop :=
  ∀ a c, plan.Late (plan.node a) c → plan.LeadsTo c a → plan.Calm a

/-- What some rules made of a member: nothing, or one that selects its key is active. -/
def Untouched (plan : Plan) (rules : List ((String → Bool) × Pointer)) (member : String × Json)
    (current : Json) : Prop :=
  current = member.2 ∨ ∃ rule ∈ rules, plan.isActive rule.2 = true ∧ rule.1 member.1 = true

/-- What some stages made of a value: nothing, or one of their nodes is active. -/
def Unchanged (plan : Plan) (value : Json) (stages : List (List Pointer)) (current : Json) : Prop :=
  current = value ∨ ∃ stage ∈ stages, ∃ c ∈ stage, plan.isActive c = true

lemma Unchanged.keep {value current : Json} {before : List (List Pointer)}
    (h : plan.Unchanged value before current) (stage : List Pointer) :
    plan.Unchanged value (before ++ [stage]) current := by
  rcases h with h | ⟨earlier, hearlier, h⟩
  · exact Or.inl h
  · exact Or.inr ⟨earlier, List.mem_append_left _ hearlier, h⟩

/-- A node that is not active leaves the value as it is. -/
lemma Unchanged.step {value current result : Json} {before : List (List Pointer)}
    {stage : List Pointer} {c : Pointer} (h : plan.Unchanged value before current)
    (hc : c ∈ stage) (hresult : plan.isActive c = false → result = current) :
    plan.Unchanged value (before ++ [stage]) result := by
  cases hactive : plan.isActive c with
  | true => exact Or.inr ⟨stage, List.mem_append_right _ (List.mem_singleton_self _), c, hc, hactive⟩
  | false => exact hresult hactive ▸ h.keep stage

/-- If nothing inside is active, the value is as it was. -/
lemma unchanged_of_related {members results : Entries Json}
    (h : Related (plan.Untouched node.memberRules) members results) :
    plan.Unchanged (.object members) [node.insideNodes] (.object results) := by
  by_cases hactive : ∃ c ∈ node.insideNodes, plan.isActive c = true
  · exact Or.inr ⟨_, List.mem_singleton_self _, hactive⟩
  · have hsame : List.Forall₂ Eq members results := by
      refine List.Forall₂.imp ?_ h
      rintro member ⟨key, current⟩ ⟨rfl, rfl | ⟨rule, hrule, hrule', -⟩⟩
      · rfl
      · exact absurd ⟨rule.2, mem_insideNodes_of_rule hrule, hrule'⟩ hactive
    rw [List.forall₂_eq_eq_eq] at hsame
    exact Or.inl (hsame ▸ rfl)

/-- **Inside a value.**  A member is less deep than the value, or a rule before has handed it on; then
the node of the rule is late. -/
lemma ends_visitInside_of_untouched {value : Json}
    (hvisit : ∀ c ∈ node.insideNodes, ∀ at_ current,
      current.depth < value.depth ∨ plan.Late node c →
      Ends (fun steps => visit steps c at_ current [])
        fun r => plan.isActive c = false → r.1 = current) :
    Ends (fun steps => visitInside (visit steps) node at_ value)
      (plan.Unchanged value [node.insideNodes]) := by
  cases value with
  | object members =>
    refine (ends_visitInside_object (S := plan.Untouched) (fun member _ => Or.inl rfl) ?_ ?_).imp
      ?_
    · rintro before rule after member current - - - (h | ⟨earlier, hearlier, h⟩)
      · exact Or.inl h
      · exact Or.inr ⟨earlier, List.mem_append_left _ hearlier, h⟩
    · intro before rule after member current hrules hmember hselects hcurrent
      have hrule : rule ∈ node.memberRules := by simp [hrules]
      refine (hvisit rule.2 (mem_insideNodes_of_rule hrule) _ current ?_).imp fun r hr => ?_
      -- the member is as it was, or an active rule was there before, and then this node is late
      · rcases hcurrent with rfl | ⟨earlier, hearlier, hactive, hearlierSelects⟩
        · exact Or.inl (Nat.lt_succ_of_le (Json.depth_le_of_mem_members hmember))
        · exact Or.inr (.member hrules hearlier hactive hearlierSelects hselects)
      · cases hactive : plan.isActive rule.2 with
        | true =>
          exact Or.inr ⟨rule, List.mem_append_right _ (List.mem_singleton_self _), hactive, hselects⟩
        | false =>
          rw [hr hactive]
          rcases hcurrent with h | ⟨earlier, hearlier, h⟩
          · exact Or.inl h
          · exact Or.inr ⟨earlier, List.mem_append_left _ hearlier, h⟩
    · rintro _ ⟨results, rfl, hresults⟩
      exact unchanged_of_related hresults
  | array items =>
    refine (ends_visitInside_array (S := fun item result =>
      result = item ∨ ∃ c ∈ node.insideNodes, plan.isActive c = true)
      (fun _ _ _ _ => Or.inl rfl) ?_).imp ?_
    · intro item hitem index child hchild
      have hmem := mem_insideNodes_of_item hchild
      have hdepth : item.depth < (Json.array items).depth :=
        Nat.lt_succ_of_le (Json.depth_le_of_mem_items hitem)
      refine (hvisit child hmem _ item (Or.inl hdepth)).imp fun r hr => ?_
      cases hactive : plan.isActive child with
      | true => exact Or.inr ⟨child, hmem, hactive⟩
      | false => exact Or.inl (hr hactive)
    · rintro _ ⟨results, rfl, hresults⟩
      -- each item has one node at most: if none of them is active, no item has changed
      by_cases hactive : ∃ c ∈ node.insideNodes, plan.isActive c = true
      · exact Or.inr ⟨_, List.mem_singleton_self _, hactive⟩
      · have hsame : List.Forall₂ Eq items results :=
          List.Forall₂.imp (fun item result h => (h.resolve_right hactive).symm) hresults
        rw [List.forall₂_eq_eq_eq] at hsame
        exact Or.inl (hsame ▸ rfl)
  | _ => exact ends_done (Or.inl rfl)

/-- **All nodes.**  A late node leads to fewer nodes than the one that hands on to it, as it does not
lead back; on to the others goes the value, or a part of it, as it arrived. -/
lemma ends_visit_of_settles (hsettles : plan.Settles) {pointer : Pointer} {value : Json}
    {seen : List Pointer} :
    Ends (fun steps => plan.visit steps pointer at_ value seen)
      fun r => (plan.isActive pointer = false → r.1 = value) ∧ seen ⊆ r.2 := by
  induction hmeasure : toLex (plan.reach pointer, toLex (value.depth, plan.unvisitedCount seen))
    using WellFoundedLT.induction generalizing pointer at_ value seen with
  | ind measure ih =>
    subst hmeasure
    by_cases hcalm : plan.isActive pointer = true ∧ plan.Calm pointer
    · exact (ends_visit_of_calm hcalm.2).imp fun r hr =>
        ⟨fun hinactive => absurd hcalm.1 (by simp [hinactive]), hr.2⟩
    refine ends_visit (Q := fun result => plan.isActive pointer = false → result = value)
      (fun _ _ => rfl) fun hactive hnew => ?_
    -- as the plan settles, a late node does not lead back, so fewer nodes are in its reach
    have hlate : ∀ {c}, plan.LeadsTo pointer c → plan.Late (plan.node pointer) c →
        plan.reach c < plan.reach pointer := fun hleads hc =>
      reach_lt hactive hleads fun hback => hcalm ⟨hactive, hsettles pointer _ hc hback⟩
    refine ends_visitNode (I := plan.Unchanged value)
      (Q := fun result => plan.isActive pointer = false → result = value) ?_
      (fun _ stage _ h => h.keep stage) ?_ ?_
    · refine ends_visitInside_of_untouched fun c hc at_ current hcurrent => ?_
      have hleads := leadsTo_of_mem_inside hc
      have hsmaller : toLex (plan.reach c, toLex (current.depth, plan.unvisitedCount []))
          < toLex (plan.reach pointer, toLex (value.depth, plan.unvisitedCount seen)) := by
        rw [Prod.Lex.toLex_lt_toLex']
        rcases hcurrent with h | h
        · exact ⟨reach_le hleads, fun _ => Prod.Lex.toLex_lt_toLex.2 (Or.inl h)⟩
        · exact ⟨(hlate hleads h).le, fun heq => absurd heq (hlate hleads h).ne⟩
      exact (ih _ hsmaller rfl).imp fun r hr => hr.1
    · intro before stage after c current seen' hstages hc hcurrent hseen
      have hleads : plan.LeadsTo pointer c :=
        leadsTo_of_mem_stage (by simp [hstages]) hc
      have hsmaller : toLex (plan.reach c, toLex (current.depth, plan.unvisitedCount seen'))
          < toLex (plan.reach pointer, toLex (value.depth, plan.unvisitedCount seen)) := by
        rw [Prod.Lex.toLex_lt_toLex']
        rcases hcurrent with rfl | ⟨earlier, hearlier, b, hb, hbactive⟩
        · exact ⟨reach_le hleads, fun _ => Prod.Lex.toLex_lt_toLex.2
            (Or.inr ⟨rfl, unvisitedCount_lt hactive hnew hseen⟩)⟩
        · have h := hlate hleads (.stage hstages hearlier hb hbactive hc)
          exact ⟨h.le, fun heq => absurd heq h.ne⟩
      exact (ih _ hsmaller rfl).imp fun r hr => ⟨hcurrent.step hc hr.1, hr.2⟩
    · exact fun _ _ _ _ hinactive => absurd hactive (by simp [hinactive])

/-- **The pass ends on every value**, if no late node of a node that is not calm leads back to it: from
some budget on, all runs are one run, which does not exceed its budget. -/
theorem run_ends (hsettles : plan.Settles) (value : Json) :
    ∃ least, (plan.run least value).Finished ∧
      ∀ steps, least ≤ steps → plan.run steps value = plan.run least value := by
  have hends : Ends (fun steps => plan.run steps value) fun _ => True :=
    (ends_visit_of_settles hsettles).map fun _ _ => trivial
  obtain ⟨p, hp, -, least, hleast⟩ := hends
  have hrun : plan.run least value = p := hleast least (le_refl _)
  exact ⟨least, hrun ▸ hp, fun steps hsteps => (hleast steps hsteps).trans hrun.symm⟩

/-- In a plan whose transforms are all shallow every node is calm. -/
lemma settles_of_shallow
    (h : ∀ node ∈ plan.nodes, ∀ entry ∈ node.chain, entry.2.Shallow) : plan.Settles := by
  intro a _ _ _ b _ entry hentry
  exact forall_mem_chain h b entry hentry

/-! ## Round and round -/

/-- A schema of which the first part rewrites a value, and the second leads from a member of the
value back to the whole. -/
def circularSchema : Fragment where
  keywords :=
    [("allOf", .array [
      .object [("transform", .array [.string "t"])],
      .object [("properties", .object [("a", .object [("$ref", .string "#")])])]])]

/-- The plan of the circular schema. -/
def circularPlan (transform : Transform) : Plan where
  document := circularSchema.json
  nodes :=
    [{ outline := { pointer := "", allOf := ["/allOf/0", "/allOf/1"] }, active := true },
      { outline := { pointer := "/allOf/0" }, chain := [("t", transform)], active := true },
      { outline :=
          { pointer := "/allOf/1", properties := [("a", "/allOf/1/properties/a")] }, active := true },
      { outline := { pointer := "/allOf/1/properties/a", reference := some "" }, active := true }]

/-- The options under which the circular schema names a transform. -/
def circularOptions (transform : Transform) : Options where
  transforms := Table.ofPairs [("t", transform)]

/-- A transform that returns one value, whatever it is given. -/
def constant (value : Json) : Transform :=
  Transform.ofFunction fun _ => .ok value

/-- With a transform that returns `null`, no run on the circular schema is endless. -/
theorem circularPlan_run_ends :
    compile (Matcher.build {} [] {}) circularSchema (circularOptions (constant .null))
        = .ok (circularPlan (constant .null))
      ∧ (circularPlan (constant .null)).Settles
      ∧ ∃ least, ((circularPlan (constant .null)).run least (.object [("a", .int 0)])).Finished
        ∧ ∀ steps, least ≤ steps →
          (circularPlan (constant .null)).run steps (.object [("a", .int 0)])
            = (circularPlan (constant .null)).run least (.object [("a", .int 0)]) := by
  have hshallow : (constant .null).Shallow := by
    intro context value result h
    have hresult : Json.null = result := by simpa [constant, Transform.ofFunction] using h
    exact hresult ▸ Nat.zero_le _
  have hsettles : (circularPlan (constant .null)).Settles :=
    settles_of_shallow (by simpa [circularPlan] using hshallow)
  exact ⟨by rfl, hsettles, run_ends hsettles _⟩

/-- The value that the transform of the endless schema returns. -/
def nest : Json := .object [("a", .int 0)]

/-- The plan of the circular schema with a transform that makes a member. -/
def endlessPlan : Plan := circularPlan (constant nest)

/-- From the member `a` the pass goes back to the root, with a value like the one it began with. -/
lemma visit_member_exhausted {steps : ℕ}
    (h : (endlessPlan.visit steps "" at_ (.int 0) ["/allOf/1/properties/a"]).outcome
      = .error .exhausted) :
    (endlessPlan.visit (steps + 1) "/allOf/1/properties/a" at_ (.int 0) []).outcome
      = .error .exhausted := by
  change (visitEach (endlessPlan.visit steps) at_ [""] (.int 0) ["/allOf/1/properties/a"]
    >>= _).outcome = _
  exact outcome_bind_of_error (outcome_bind_of_error h _) _

/-- The second part of the schema hands on the member that the first part made. -/
lemma visit_properties_exhausted {steps : ℕ} {seen : List Pointer} (hseen : "/allOf/1" ∉ seen)
    (h : (endlessPlan.visit steps "/allOf/1/properties/a" (at_.child "a" (.int 0)) (.int 0)
      []).outcome = .error .exhausted) :
    (endlessPlan.visit (steps + 1) "/allOf/1" at_ nest seen).outcome = .error .exhausted := by
  have hvisit : endlessPlan.visit (steps + 1) "/allOf/1" at_ nest seen
      = endlessPlan.visitNode (endlessPlan.visit steps) (endlessPlan.node "/allOf/1") at_ nest
        ("/allOf/1" :: seen) := by
    simp only [visit, hseen]
    rfl
  have hchild : (visitChild (endlessPlan.visit steps) at_ "a" "/allOf/1/properties/a"
      (.int 0)).outcome = .error .exhausted := outcome_bind_of_error h _
  have hmembers : (visitMembers (endlessPlan.visit steps) at_ (fun key => key == "a")
      "/allOf/1/properties/a" [("a", .int 0)]).outcome = .error .exhausted :=
    outcome_bind_of_error (outcome_bind_of_error hchild _) _
  rw [hvisit]
  exact outcome_bind_of_error (outcome_bind_of_error (outcome_bind_of_error hmembers _) _) _

/-- The first part of the schema makes the value whose member the second part hands on. -/
lemma visit_root_exhausted {steps : ℕ} {seen : List Pointer}
    (hseen : seen = [] ∨ seen = ["/allOf/1/properties/a"])
    (h : (endlessPlan.visit (steps + 1) "/allOf/1" at_ nest
      ("/allOf/0" :: "" :: seen)).outcome = .error .exhausted) :
    (endlessPlan.visit (steps + 2) "" at_ (.int 0) seen).outcome = .error .exhausted := by
  have hvisit : endlessPlan.visit (steps + 2) "" at_ (.int 0) seen
      = endlessPlan.visitNode (endlessPlan.visit (steps + 1)) (endlessPlan.node "") at_ (.int 0)
        ("" :: seen) := by
    rcases hseen with rfl | rfl <;> rfl
  have hfirst : (endlessPlan.visit (steps + 1) "/allOf/0" at_ (.int 0) ("" :: seen)).outcome
      = .ok (nest, "/allOf/0" :: "" :: seen) := by
    rcases hseen with rfl | rfl <;> rfl
  have heach : (visitEach (endlessPlan.visit (steps + 1)) at_ ["/allOf/0", "/allOf/1"] (.int 0)
      ("" :: seen)).outcome = .error .exhausted := by
    rw [visitEach, List.foldlM_cons, outcome_bind_of_ok hfirst]
    exact outcome_bind_of_error h _
  rw [hvisit]
  exact outcome_bind_of_error heach _

lemma visit_endless (steps : ℕ) {at_ : Position} {seen : List Pointer}
    (hseen : seen = [] ∨ seen = ["/allOf/1/properties/a"]) :
    (endlessPlan.visit steps "" at_ (.int 0) seen).outcome = .error .exhausted := by
  induction steps using Nat.strong_induction_on generalizing at_ seen with
  | h steps ih =>
    match steps with
    | 0 => rfl
    | 1 | 2 => rcases hseen with rfl | rfl <;> rfl
    | steps + 3 =>
      have hback : (endlessPlan.visit steps "" (at_.child "a" (.int 0)) (.int 0)
          ["/allOf/1/properties/a"]).outcome = .error .exhausted := ih steps (by omega) (Or.inr rfl)
      refine visit_root_exhausted hseen (visit_properties_exhausted ?_ (visit_member_exhausted hback))
      rcases hseen with rfl | rfl <;> decide

/-- **A schema on which the pass does not end**: whatever the budget, it is exceeded. -/
theorem endless_never_ends :
    compile (Matcher.build {} [] {}) circularSchema (circularOptions (constant nest))
        = .ok endlessPlan
      ∧ ∀ steps, (endlessPlan.run steps (.int 0)).outcome = .error .exhausted :=
  ⟨by rfl, fun steps => outcome_bind_of_error (visit_endless steps (Or.inl rfl)) _⟩

end Plan

end SchemaAlgebra
