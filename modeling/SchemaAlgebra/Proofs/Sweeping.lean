import SchemaAlgebra.Proofs.Assignments

/-!
# Pruning node by node

Pruning can also be done one node at a time: a node first sends the value to its conjuncts, then drops what
it has no room for, and then sends what is left inside the value to the nodes that it has for it
(`Plan.sweep`).  At one position no node is visited twice, below it all may be visited again.  As nodes may
lead back to themselves, such a sweep is given the number of steps that it may take.

* `Plan.pruneAt_append` — pruning by some nodes and then by others is pruning by all of them, so the order in
  which they are visited does not matter.
* `Plan.Swept` — leaving out what was seen leaves no node out that applies.
* `Plan.sweeps_node` — a sweep ends within `Plan.sweepBound` steps, and prunes by the nodes that it visits.
* **`Plan.prune_exact`** — so sweeping is pruning, which takes out of a value the members that are refused,
  and nothing else, and finds nothing to take out when it is done again.
-/

namespace SchemaAlgebra

namespace Plan

variable {plan : Plan} {nodes more entered others : List Pointer} {pointer child : Pointer} {value : Json}

/-! ## Pruning by more and more nodes -/

lemma allow_append (nodes more : List PlanNode) (key : String) :
    allow (nodes ++ more) key = (allow nodes key && allow more key) :=
  List.all_append

/-- Which nodes prune a value counts, and not how often or in what order, if it does for its parts. -/
lemma pruneBy_congr_of_parts (hw : plan.Whole) (hnodes : nodes ⊆ plan.places)
    (h : ∀ p, p ∈ nodes ↔ p ∈ more) (hparts : ∀ part : Json, part.depth < value.depth →
      ∀ {entered others : List Pointer}, entered ⊆ plan.places → (∀ p, p ∈ entered ↔ p ∈ others) →
        plan.pruneAt entered part = plan.pruneAt others part) :
    plan.pruneBy nodes value = plan.pruneBy more value := by
  cases value with
  | object members =>
    have hallow : ∀ key, allow (nodes.map plan.node) key = allow (more.map plan.node) key := fun key =>
      Bool.eq_iff_iff.2 (by simp only [allow_map_iff, h])
    simp only [pruneBy_object, hallow]
    refine congrArg Json.object (List.map_congr_left fun member hmember => congrArg _ ?_)
    have hmember := Json.depth_le_of_mem_members (List.mem_filter.1 hmember).1
    refine hparts _ (Nat.lt_succ_of_le hmember) (memberEntries_subset hw hnodes _) ?_
    simp only [memberEntries, List.mem_flatMap, h, implies_true]
  | array items =>
    simp only [pruneBy_array]
    refine congrArg Json.array (List.ext_getElem (by simp) fun index hindex _ => ?_)
    rw [List.getElem_mapIdx, List.getElem_mapIdx]
    rw [List.length_mapIdx] at hindex
    have hitem := Json.depth_le_of_mem_items (List.getElem_mem hindex)
    refine hparts _ (Nat.lt_succ_of_le hitem) (itemEntries_subset hw hnodes _) ?_
    simp only [itemEntries, List.mem_filterMap, h, implies_true]
  | _ => rfl

lemma pruneAt_congr (hw : plan.Whole) (value : Json) (hentered : entered ⊆ plan.places)
    (h : ∀ p, p ∈ entered ↔ p ∈ others) : plan.pruneAt entered value = plan.pruneAt others value := by
  induction hdepth : value.depth using Nat.strongRecOn generalizing entered others value with
  | _ depth ih =>
    have hothers : others ⊆ plan.places := fun p hp => hentered ((h p).2 hp)
    rw [pruneAt_eq, pruneAt_eq]
    refine pruneBy_congr_of_parts hw (joined_subset hw hentered) (fun p => ?_)
      fun part hpart _ _ hsubset hsame => ih _ (hdepth ▸ hpart) part hsubset hsame rfl
    rw [mem_joined_iff hw hentered, mem_joined_iff hw hothers]
    simp only [h]

lemma pruneBy_congr (hw : plan.Whole) (hnodes : nodes ⊆ plan.places) (h : ∀ p, p ∈ nodes ↔ p ∈ more)
    (value : Json) : plan.pruneBy nodes value = plan.pruneBy more value :=
  pruneBy_congr_of_parts hw hnodes h fun part _ _ _ hsubset hsame => pruneAt_congr hw part hsubset hsame

/-- Pruning by some nodes and then by more is pruning by all of them, if it is for the parts. -/
lemma pruneBy_append_of_parts (hw : plan.Whole) (hnodes : nodes ⊆ plan.places) (hmore : more ⊆ plan.places)
    (hparts : ∀ part : Json, part.depth < value.depth → ∀ {entered others : List Pointer},
      entered ⊆ plan.places → others ⊆ plan.places →
        plan.pruneAt others (plan.pruneAt entered part) = plan.pruneAt (entered ++ others) part) :
    plan.pruneBy more (plan.pruneBy nodes value) = plan.pruneBy (nodes ++ more) value := by
  cases value with
  | object members =>
    simp only [pruneBy_object, List.filter_map, List.filter_filter, List.map_map, List.map_append,
      allow_append, Function.comp_def, Bool.and_comm]
    refine congrArg Json.object (List.map_congr_left fun member hmember => congrArg _ ?_)
    have hmember := Json.depth_le_of_mem_members (List.mem_filter.1 hmember).1
    rw [hparts _ (Nat.lt_succ_of_le hmember) (memberEntries_subset hw hnodes _)
      (memberEntries_subset hw hmore _), memberEntries, memberEntries, ← List.flatMap_append]
    rfl
  | array items =>
    simp only [pruneBy_array, List.mapIdx_mapIdx, Function.comp_def]
    refine congrArg Json.array (List.ext_getElem (by simp) fun index hindex _ => ?_)
    rw [List.getElem_mapIdx, List.getElem_mapIdx]
    rw [List.length_mapIdx] at hindex
    have hitem := Json.depth_le_of_mem_items (List.getElem_mem hindex)
    rw [hparts _ (Nat.lt_succ_of_le hitem) (itemEntries_subset hw hnodes _)
      (itemEntries_subset hw hmore _), itemEntries, itemEntries, ← List.filterMap_append]
    rfl
  | _ => rfl

lemma pruneAt_append (hw : plan.Whole) (value : Json) (hentered : entered ⊆ plan.places)
    (hothers : others ⊆ plan.places) :
    plan.pruneAt others (plan.pruneAt entered value) = plan.pruneAt (entered ++ others) value := by
  induction hdepth : value.depth using Nat.strongRecOn generalizing entered others value with
  | _ depth ih =>
    have hboth : entered ++ others ⊆ plan.places := List.append_subset.2 ⟨hentered, hothers⟩
    have hjoined : plan.joined entered ++ plan.joined others ⊆ plan.places :=
      List.append_subset.2 ⟨joined_subset hw hentered, joined_subset hw hothers⟩
    rw [pruneAt_eq, pruneAt_eq entered, pruneAt_eq,
      pruneBy_append_of_parts hw (joined_subset hw hentered) (joined_subset hw hothers)
        fun part hpart _ _ hfirst hsecond => ih _ (hdepth ▸ hpart) part hfirst hsecond rfl]
    refine pruneBy_congr hw hjoined (fun p => ?_) value
    rw [List.mem_append, mem_joined_iff hw hentered, mem_joined_iff hw hothers, mem_joined_iff hw hboth]
    simp only [List.mem_append, or_and_right, exists_or]

lemma pruneBy_append (hw : plan.Whole) (hnodes : nodes ⊆ plan.places) (hmore : more ⊆ plan.places)
    (value : Json) : plan.pruneBy more (plan.pruneBy nodes value) = plan.pruneBy (nodes ++ more) value :=
  pruneBy_append_of_parts hw hnodes hmore fun part _ _ _ hfirst hsecond =>
    pruneAt_append hw part hfirst hsecond

mutual

/-- Without nodes nothing is pruned. -/
lemma pruneAt_nil (plan : Plan) : ∀ value : Json, plan.pruneAt [] value = value
  | .object members => by
    rw [pruneAt]
    exact congrArg Json.object (pruneMembers_nil plan members)
  | .array items => by
    rw [pruneAt]
    exact congrArg Json.array (pruneItems_nil plan 0 items)
  | .null | .bool _ | .number _ | .string _ => by simp only [pruneAt]

lemma pruneMembers_nil (plan : Plan) : ∀ members : List (String × Json),
    plan.pruneMembers [] members = members
  | [] => by simp only [pruneMembers]
  | (key, value) :: rest => by
    have hallow : allow [] key = true := rfl
    rw [pruneMembers, if_pos hallow, List.flatMap_nil, pruneAt_nil plan value, pruneMembers_nil plan rest]

lemma pruneItems_nil (plan : Plan) (index : ℕ) : ∀ items : List Json, plan.pruneItems [] index items = items
  | [] => by simp only [pruneItems]
  | item :: rest => by
    rw [pruneItems, List.filterMap_nil, pruneAt_nil plan item, pruneItems_nil plan (index + 1) rest]

end

mutual

lemma depth_pruneAt_le (plan : Plan) (entered : List Pointer) : ∀ value : Json,
    (plan.pruneAt entered value).depth ≤ value.depth
  | .object members => by
    rw [pruneAt]
    exact Nat.succ_le_succ (depth_pruneMembers_le plan (plan.conjunction entered) members)
  | .array items => by
    rw [pruneAt]
    exact Nat.succ_le_succ (depth_pruneItems_le plan (plan.conjunction entered) 0 items)
  | .null | .bool _ | .number _ | .string _ => by simp only [pruneAt, le_refl]

lemma depth_pruneMembers_le (plan : Plan) (nodes : List PlanNode) : ∀ members : List (String × Json),
    Json.membersDepth (plan.pruneMembers nodes members) ≤ Json.membersDepth members
  | [] => by simp only [pruneMembers, le_refl]
  | (key, value) :: rest => by
    have hrest := depth_pruneMembers_le plan nodes rest
    rw [pruneMembers]
    split
    · exact max_le_max (depth_pruneAt_le plan _ value) hrest
    · exact hrest.trans (le_max_right _ _)

lemma depth_pruneItems_le (plan : Plan) (nodes : List PlanNode) (index : ℕ) : ∀ items : List Json,
    Json.itemsDepth (plan.pruneItems nodes index items) ≤ Json.itemsDepth items
  | [] => by simp only [pruneItems, le_refl]
  | item :: rest => by
    rw [pruneItems]
    exact max_le_max (depth_pruneAt_le plan _ item) (depth_pruneItems_le plan nodes (index + 1) rest)

end

lemma pruneBy_nil (value : Json) : plan.pruneBy [] value = value := by
  have hjoined : plan.joined [] = [] := rfl
  rw [← hjoined, ← pruneAt_eq, pruneAt_nil]

lemma depth_pruneBy_le (nodes : List Pointer) (value : Json) :
    (plan.pruneBy nodes value).depth ≤ value.depth := by
  cases value with
  | object members => exact Nat.succ_le_succ (depth_pruneMembers_le plan _ members)
  | array items => exact Nat.succ_le_succ (depth_pruneItems_le plan _ 0 items)
  | _ => exact le_rfl

/-! ## The sweep -/

/-- Sweeps the members that a rule is about, each by the node of the rule. -/
def sweepMembers (sweep : Pointer → Json → Option Json) (members : Entries Json)
    (rule : (String → Bool) × Pointer) : Option (Entries Json) :=
  members.mapM fun (key, value) =>
    if rule.1 key then (sweep rule.2 value).map (Prod.mk key) else some (key, value)

/-- Drops the members that a node has no room for, and sweeps what is left inside a value by the nodes that
the node sends it to, one rule after the other. -/
def sweepInside (sweep : Pointer → Json → Option Json) (node : PlanNode) : Json → Option Json
  | .object members =>
    let kept := members.filter fun member => !node.outline.closed || node.covers member.1
    (node.memberRules.foldlM (sweepMembers sweep) kept).map .object
  | .array items =>
    (items.zipIdx.mapM fun (item, index) =>
      match node.outline.itemNode? index with
      | some child => sweep child item
      | none => some item).map .array
  | value => some value

/-- **Sweeping** prunes a value node by node: by what a node goes on to with the same value, in turn, and
then by the node itself.  A node that was seen at the position is not visited again; below it, nothing has
been seen yet.  Sweeping ends by running out of steps, if by nothing else. -/
def sweep (plan : Plan) : ℕ → Json × List Pointer → Pointer → Option (Json × List Pointer)
  | 0, _, _ => none
  | steps + 1, (value, seen), pointer =>
    if pointer ∈ seen then some (value, seen)
    else do
      let (value, seen) ← (plan.node pointer).outline.conjuncts.foldlM (sweep plan steps)
        (value, seen ++ [pointer])
      let value ← sweepInside (fun child value => (sweep plan steps (value, []) child).map Prod.fst)
        (plan.node pointer) value
      return (value, seen)

/-! ### Inside a value -/

section

variable {sweepChild : Pointer → Json → Option Json} {depth : ℕ}
  (hw : plan.Whole) (hchild : ∀ c ∈ plan.places, ∀ part : Json, part.depth < depth →
    sweepChild c part = some (plan.pruneAt [c] part))

include hchild

lemma sweepMembers_eq {rule : (String → Bool) × Pointer} (hrule : rule.2 ∈ plan.places)
    {members : Entries Json} (hmembers : ∀ member ∈ members, member.2.depth < depth) :
    sweepMembers sweepChild members rule = some (members.map fun member =>
      (member.1, plan.pruneAt (if rule.1 member.1 then [rule.2] else []) member.2)) := by
  refine mapM_eq_pure_map fun member hmember => ?_
  dsimp only
  split
  · rw [hchild rule.2 hrule member.2 (hmembers member hmember)]
    rfl
  · rw [pruneAt_nil]
    rfl

include hw

/-- One rule after the other, each member is pruned by the nodes of the rules that are about it. -/
lemma foldlM_sweepMembers {rules : List ((String → Bool) × Pointer)}
    (hrules : ∀ rule ∈ rules, rule.2 ∈ plan.places) {members : Entries Json}
    (hmembers : ∀ member ∈ members, member.2.depth < depth) :
    rules.foldlM (sweepMembers sweepChild) members = some (members.map fun member =>
      (member.1, plan.pruneAt ((rules.filter fun rule => rule.1 member.1).map Prod.snd) member.2)) := by
  induction rules generalizing members with
  | nil => simp [pruneAt_nil]
  | cons rule rules ih =>
    obtain ⟨hrule, hrules⟩ := List.forall_mem_cons.1 hrules
    rw [List.foldlM_cons, sweepMembers_eq hchild hrule hmembers]
    refine (ih hrules fun member hmember => ?_).trans ?_
    · obtain ⟨original, horiginal, rfl⟩ := List.mem_map.1 hmember
      exact (depth_pruneAt_le plan _ original.2).trans_lt (hmembers original horiginal)
    · rw [List.map_map]
      refine congrArg some (List.map_congr_left fun member _ => congrArg (Prod.mk member.1) ?_)
      have hrest : ((rules.filter fun rule => rule.1 member.1).map Prod.snd) ⊆ plan.places := by
        intro c hc
        obtain ⟨other, hother, rfl⟩ := List.mem_map.1 hc
        exact hrules other (List.mem_filter.1 hother).1
      refine (pruneAt_append hw member.2 ?_ hrest).trans (congrArg (plan.pruneAt · member.2) ?_)
      · split <;> simp [hrule]
      · rw [List.filter_cons]
        split <;> rfl

/-- **Inside a value** a node prunes what it has no room for, and nothing else. -/
lemma sweepInside_eq (hpointer : pointer ∈ plan.places) (hvalue : value.depth ≤ depth) :
    sweepInside sweepChild (plan.node pointer) value = some (plan.pruneBy [pointer] value) := by
  cases value with
  | object members =>
    rw [sweepInside, foldlM_sweepMembers hw hchild fun rule hrule => hw.rule hpointer hrule,
      pruneBy_object]
    · simp only [allow, memberEntries, List.map_cons, List.map_nil, List.all_cons, List.all_nil,
        Bool.and_true, List.flatMap_cons, List.flatMap_nil, List.append_nil]
      rfl
    · intro member hmember
      have hmember := Json.depth_le_of_mem_members (List.mem_filter.1 hmember).1
      exact (Nat.lt_succ_of_le hmember).trans_le hvalue
  | array items =>
    rw [sweepInside, pruneBy_array, List.mapIdx_eq_zipIdx_map]
    refine congrArg (Option.map Json.array) (mapM_eq_pure_map fun entry hentry => ?_)
    have hitem := Json.depth_le_of_mem_items (List.fst_mem_of_mem_zipIdx hentry)
    dsimp only [itemEntries, List.filterMap_cons, List.filterMap_nil]
    cases hnode : (plan.node pointer).outline.itemNode? entry.2 with
    | none => exact congrArg some (pruneAt_nil plan entry.1).symm
    | some child =>
      exact hchild child (hw.item hpointer hnode) entry.1 ((Nat.lt_succ_of_le hitem).trans_le hvalue)
  | _ => rfl

end

/-! ### At a position -/

/-- What a part of a sweep does at a position, where some nodes have been seen: the nodes that are new are
those that the goals lead to, until one is met that was seen. -/
structure Swept (plan : Plan) (goals seen new : List Pointer) : Prop where
  reached : goals ⊆ seen ++ new
  led : ∀ b ∈ new, ∃ a ∈ goals, plan.Joins a b
  closed : ∀ b ∈ new, (plan.node b).outline.conjuncts ⊆ seen ++ new

variable {goals seen new newer : List Pointer}

lemma swept_nil (seen : List Pointer) : plan.Swept [] seen [] :=
  ⟨List.nil_subset _, nofun, nofun⟩

lemma Swept.append (h : plan.Swept goals seen new) (hmore : plan.Swept more (seen ++ new) newer) :
    plan.Swept (goals ++ more) seen (new ++ newer) where
  reached := by
    rw [← List.append_assoc]
    exact List.append_subset.2
      ⟨List.Subset.trans h.reached (List.subset_append_left _ _), hmore.reached⟩
  led := by
    intro b hb
    rcases List.mem_append.1 hb with hb | hb
    · obtain ⟨a, ha, hleads⟩ := h.led b hb
      exact ⟨a, List.mem_append_left _ ha, hleads⟩
    · obtain ⟨a, ha, hleads⟩ := hmore.led b hb
      exact ⟨a, List.mem_append_right _ ha, hleads⟩
  closed := by
    intro b hb
    rw [← List.append_assoc]
    rcases List.mem_append.1 hb with hb | hb
    · exact List.Subset.trans (h.closed b hb) (List.subset_append_left _ _)
    · exact hmore.closed b hb

/-- A node is swept after what it goes on to. -/
lemma Swept.node (h : plan.Swept (plan.node pointer).outline.conjuncts (seen ++ [pointer]) new) :
    plan.Swept [pointer] seen (pointer :: new) where
  reached := by simp
  led := by
    intro b hb
    rcases List.mem_cons.1 hb with rfl | hb
    · exact ⟨b, List.mem_singleton_self b, Relation.ReflTransGen.refl⟩
    · obtain ⟨a, ha, hleads⟩ := h.led b hb
      exact ⟨pointer, List.mem_singleton_self _, Relation.ReflTransGen.head ha hleads⟩
  closed := by
    intro b hb
    have hassoc : seen ++ pointer :: new = seen ++ [pointer] ++ new := by simp
    rw [hassoc]
    rcases List.mem_cons.1 hb with rfl | hb
    · exact h.reached
    · exact h.closed b hb

/-- Where nothing was seen before, a sweep misses none of the nodes that apply. -/
lemma Swept.mem_iff_mem_joined (hw : plan.Whole) (hgoals : goals ⊆ plan.places)
    (h : plan.Swept goals [] new) : pointer ∈ new ↔ pointer ∈ plan.joined goals := by
  rw [mem_joined_iff hw hgoals]
  refine ⟨h.led pointer, fun ⟨a, ha, hleads⟩ => ?_⟩
  exact Graph.mem_of_leads h.closed (h.reached ha) hleads

lemma sweep_fresh (hw : plan.Whole) (hpointer : pointer ∈ plan.places)
    (h : plan.Swept [pointer] [] new) (hnew : new ⊆ plan.places) (value : Json) :
    plan.pruneBy new value = plan.pruneAt [pointer] value := by
  rw [pruneAt_eq]
  exact pruneBy_congr hw hnew (fun _ => h.mem_iff_mem_joined hw (by simpa using hpointer)) value

/-! ### The whole sweep -/

/-- The steps that a sweep takes at most, of a value where some nodes have been seen. -/
def sweepBound (plan : Plan) (value : Json) (seen : List Pointer) : ℕ :=
  value.depth * (plan.nodes.length + 1) + plan.unvisitedCount seen + 1

/-- A sweep that comes to an end at a position has pruned by the nodes that are new, which it has seen. -/
def Sweeps (plan : Plan) (steps : ℕ) (goals : List Pointer) (value : Json) (seen : List Pointer) : Prop :=
  ∃ new ⊆ plan.places, goals.foldlM (plan.sweep steps) (value, seen)
    = some (plan.pruneBy new value, seen ++ new) ∧ plan.Swept goals seen new

lemma foldlM_singleton {σ α : Type} (f : σ → α → Option σ) (state : σ) (a : α) :
    [a].foldlM f state = f state a := by
  simp

lemma unvisitedCount_append_le (seen new : List Pointer) :
    plan.unvisitedCount (seen ++ new) ≤ plan.unvisitedCount seen := by
  refine Finset.card_le_card (Finset.sdiff_subset_sdiff (Finset.Subset.refl _) fun p hp => ?_)
  exact List.mem_toFinset.2 (List.mem_append_left _ (List.mem_toFinset.1 hp))

lemma sweepBound_le {part : Json} (h : part.depth ≤ value.depth) (seen new : List Pointer) :
    plan.sweepBound part (seen ++ new) ≤ plan.sweepBound value seen :=
  Nat.succ_le_succ (Nat.add_le_add (Nat.mul_le_mul_right _ h) (unvisitedCount_append_le seen new))

/-- Below a position everything may be visited again. -/
lemma sweepBound_lt_of_depth_lt {part : Json} (h : part.depth < value.depth) (seen : List Pointer) :
    plan.sweepBound part [] < plan.sweepBound value seen := by
  have hall : plan.unvisitedCount [] ≤ plan.nodes.length := by
    have hcard := List.toFinset_card_le (plan.nodes.map fun node => node.outline.pointer)
    simpa [unvisitedCount, pointers] using hcard
  have hmul := Nat.mul_le_mul_right (plan.nodes.length + 1) (Nat.succ_le_of_lt h)
  rw [Nat.succ_mul] at hmul
  unfold sweepBound
  omega

/-- If a sweep by any node ends within the steps, so does one by several nodes. -/
lemma sweeps_goals {steps : ℕ} (hw : plan.Whole)
    (hsweeps : ∀ pointer ∈ plan.places, ∀ value seen, plan.sweepBound value seen ≤ steps →
      plan.Sweeps steps [pointer] value seen)
    (hgoals : goals ⊆ plan.places) (hbound : plan.sweepBound value seen ≤ steps) :
    plan.Sweeps steps goals value seen := by
  induction goals generalizing value seen with
  | nil =>
    refine ⟨[], List.nil_subset _, ?_, swept_nil seen⟩
    rw [pruneBy_nil, List.append_nil]
    rfl
  | cons goal goals ih =>
    obtain ⟨hgoal, hgoals⟩ := List.cons_subset.1 hgoals
    obtain ⟨new, hnew, hfirst, hswept⟩ := hsweeps goal hgoal value seen hbound
    have hbound : plan.sweepBound (plan.pruneBy new value) (seen ++ new) ≤ steps :=
      (sweepBound_le (depth_pruneBy_le new value) seen new).trans hbound
    obtain ⟨newer, hnewer, hrest, hmore⟩ := ih hgoals hbound
    refine ⟨new ++ newer, List.append_subset.2 ⟨hnew, hnewer⟩, ?_, hswept.append hmore⟩
    rw [foldlM_singleton] at hfirst
    rw [List.foldlM_cons, hfirst, Option.bind_eq_bind, Option.bind_some, hrest,
      pruneBy_append hw hnew hnewer, List.append_assoc]

lemma sweeps_node (hw : plan.Whole) (steps : ℕ) : ∀ pointer ∈ plan.places, ∀ value seen,
    plan.sweepBound value seen ≤ steps → plan.Sweeps steps [pointer] value seen := by
  induction steps with
  | zero => exact fun _ _ _ _ hbound => absurd hbound (Nat.not_succ_le_zero _)
  | succ steps ih =>
    intro pointer hpointer value seen hbound
    by_cases hseen : pointer ∈ seen
    · -- the node has been at the position before
      refine ⟨[], List.nil_subset _, ?_, ⟨by simpa using hseen, nofun, nofun⟩⟩
      rw [pruneBy_nil, List.append_nil]
      simp [sweep, hseen]
    · have hfewer : plan.unvisitedCount (seen ++ [pointer]) < plan.unvisitedCount seen :=
        unvisitedCount_lt_of_mem (List.mem_toFinset.2 hpointer) hseen (by simp)
      have hbelow : plan.sweepBound value (seen ++ [pointer]) ≤ steps := by
        unfold sweepBound at hbound ⊢
        omega
      obtain ⟨new, hnew, hconjuncts, hswept⟩ := sweeps_goals hw ih (hw.conjunct pointer hpointer) hbelow
      -- further in, no node has been seen yet, but the value is less deep
      have hchild : ∀ c ∈ plan.places, ∀ part : Json, part.depth < value.depth →
          ((plan.sweep steps (part, []) c).map Prod.fst) = some (plan.pruneAt [c] part) := by
        intro c hc part hpart
        have hpart : plan.sweepBound part [] ≤ steps :=
          Nat.le_of_lt_succ ((sweepBound_lt_of_depth_lt hpart seen).trans_le hbound)
        obtain ⟨inside, hinside, hsweep, hswept⟩ := ih c hc part [] hpart
        rw [foldlM_singleton] at hsweep
        rw [hsweep, Option.map_some, sweep_fresh hw hc hswept hinside]
      have hself : plan.pruneBy [pointer] (plan.pruneBy new value) = plan.pruneBy (pointer :: new) value := by
        rw [pruneBy_append hw hnew (by simpa using hpointer)]
        exact pruneBy_congr hw (by simpa using ⟨hnew, hpointer⟩) (by simp [or_comm]) value
      refine ⟨pointer :: new, List.cons_subset.2 ⟨hpointer, hnew⟩, ?_, hswept.node⟩
      have hdepth : (plan.pruneBy new value).depth ≤ value.depth := depth_pruneBy_le new value
      rw [foldlM_singleton, sweep, if_neg hseen, hconjuncts]
      simp only [bind, Option.bind_some, sweepInside_eq hw hchild hpointer hdepth, hself]
      simp

/-- **Sweeping is pruning.** -/
lemma sweep_eq_prune (hw : plan.Whole) {steps : ℕ} (hsteps : plan.sweepBound value [] ≤ steps) :
    ∃ seen, plan.sweep steps (value, []) "" = some (plan.prune value, seen) := by
  obtain ⟨new, hnew, hsweep, hswept⟩ := sweeps_node hw steps "" hw.root value [] hsteps
  rw [foldlM_singleton, sweep_fresh hw hw.root hswept hnew] at hsweep
  exact ⟨_, hsweep⟩

/-- **Pruning is exact.**  By a compiled plan, cyclic or not, a sweep of any value ends, with the value
pruned.  That is the value without the members that a closed node which is assigned to their object does
not cover, and with all else that was in it; and there is nothing in it to prune. -/
theorem prune_exact {build : MatcherBuilder} {schema : Fragment} {options : Options}
    (h : compile build schema options = .ok plan) (hvalue : value.WellFormed) :
    (∀ steps, plan.sweepBound value [] ≤ steps →
        ∃ seen, plan.sweep steps (value, []) "" = some (plan.prune value, seen))
      ∧ Json.Without (plan.Refuses value) [] value (plan.prune value)
      ∧ plan.prune (plan.prune value) = plan.prune value := by
  have hw : plan.Whole := whole_of_compile h
  exact ⟨fun _ hsteps => sweep_eq_prune hw hsteps, without_prune hw hvalue, plan.prune_prune value⟩

/-- Folders with notes: a schema that applies itself once more to the same value, and to the folder inside. -/
def notesSchema : Fragment where
  keywords :=
    [("additionalProperties", .bool false), ("allOf", .array [.object [("$ref", .string "#")]]),
      ("patternProperties", .object [("^x-", .object [("additionalProperties", .bool false)])]),
      ("properties", .object [("inner", .object [("$ref", .string "#")]), ("name", .object [])])]

/-- A folder in a folder, each with a member that is not provided for. -/
def notesValue : Json :=
  .object [("inner", .object [("name", .string "b"), ("size", .int 1), ("x-n", .object [("a", .int 2)])]),
    ("name", .object [("any", .int 3)]), ("size", .int 4)]

/-- Though the schema goes in circles, the sweep ends; it drops a member of each folder, and one of a note. -/
theorem notesSchema_prunes_exactly : ∃ plan, compile (Matcher.build {} [] {}) notesSchema {} = .ok plan
    ∧ notesValue.WellFormed
    ∧ plan.prune notesValue = .object [("inner", .object [("name", .string "b"), ("x-n", .object [])]),
        ("name", .object [("any", .int 3)])]
    ∧ (∀ steps, plan.sweepBound notesValue [] ≤ steps →
        ∃ seen, plan.sweep steps (notesValue, []) "" = some (plan.prune notesValue, seen))
    ∧ Json.Without (plan.Refuses notesValue) [] notesValue (plan.prune notesValue)
    ∧ plan.prune (plan.prune notesValue) = plan.prune notesValue := by
  have hwf : notesValue.WellFormed := by decide +kernel
  have hpruned : (compile (Matcher.build {} [] {}) notesSchema {}).toOption.any (fun plan =>
      plan.prune notesValue = .object [("inner", .object [("name", .string "b"), ("x-n", .object [])]),
        ("name", .object [("any", .int 3)])]) = true := by decide +kernel
  cases hcompile : compile (Matcher.build {} [] {}) notesSchema {} with
  | error e => simp [hcompile, Except.toOption] at hpruned
  | ok plan =>
    rw [hcompile] at hpruned
    exact ⟨plan, rfl, hwf, of_decide_eq_true hpruned, prune_exact hcompile hwf⟩

end Plan

end SchemaAlgebra
