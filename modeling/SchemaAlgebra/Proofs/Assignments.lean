import SchemaAlgebra.Proofs.Pruning

/-!
# Which members are pruned

The nodes of a plan are assigned to the positions of a value: the root to the value, what applies wherever
a node does to the same position, and the schemas of members and items to the members and items
(`Plan.Assigned`).  A node refuses a member if it is closed and does not cover its key (`Plan.Refuses`).

**`Plan.without_prune`** — pruning takes out of a value the members that are refused, and nothing else.
-/

namespace SchemaAlgebra

/-! ## Values without some members -/

namespace Json

mutual

/-- **A value without some members.**  It is the same value, but that the objects in it lack the members that
are gone.  Which these are is said by the position of the object and the key. -/
inductive Without (gone : List String → String → Prop) : List String → Json → Json → Prop
  | null {path} : Without gone path .null .null
  | bool {path b} : Without gone path (.bool b) (.bool b)
  | number {path n} : Without gone path (.number n) (.number n)
  | string {path s} : Without gone path (.string s) (.string s)
  | array {path items others} : WithoutInItems gone path 0 items others →
      Without gone path (.array items) (.array others)
  | object {path members others} : WithoutMembers gone path members others →
      Without gone path (.object members) (.object others)

/-- The members of an object without those that are gone. -/
inductive WithoutMembers (gone : List String → String → Prop) :
    List String → List (String × Json) → List (String × Json) → Prop
  | nil {path} : WithoutMembers gone path [] []
  | keep {path key value other rest others} : ¬ gone path key →
      Without gone (path ++ [key]) value other → WithoutMembers gone path rest others →
      WithoutMembers gone path ((key, value) :: rest) ((key, other) :: others)
  | drop {path key value rest others} : gone path key → WithoutMembers gone path rest others →
      WithoutMembers gone path ((key, value) :: rest) others

/-- The items of an array from a place on, each without the members that are gone. -/
inductive WithoutInItems (gone : List String → String → Prop) :
    List String → ℕ → List Json → List Json → Prop
  | nil {path index} : WithoutInItems gone path index [] []
  | cons {path index item other rest others} :
      Without gone (path ++ [Pointer.indexToken index]) item other →
      WithoutInItems gone path (index + 1) rest others →
      WithoutInItems gone path index (item :: rest) (other :: others)

end

variable {gone : List String → String → Prop} {path : List String}

lemma withoutMembers_filter_map (keep : String → Bool) (prune : String → Json → Json) {members : Entries Json}
    (hkeep : ∀ key, keep key = true ↔ ¬ gone path key)
    (h : ∀ member ∈ members, Without gone (path ++ [member.1]) member.2 (prune member.1 member.2)) :
    WithoutMembers gone path members
      ((members.filter fun member => keep member.1).map
        fun member => (member.1, prune member.1 member.2)) := by
  induction members with
  | nil => exact .nil
  | cons member rest ih =>
    obtain ⟨hmember, hrest⟩ := List.forall_mem_cons.1 h
    rw [List.filter_cons]
    split
    · rename_i hkept
      exact .keep ((hkeep member.1).1 hkept) hmember (ih hrest)
    · rename_i hgone
      exact .drop (not_not.1 fun hkept => hgone ((hkeep member.1).2 hkept)) (ih hrest)

lemma withoutInItems_mapIdx {prune : ℕ → Json → Json} {items : List Json} {first : ℕ}
    (h : ∀ index item, items[index]? = some item →
      Without gone (path ++ [Pointer.indexToken (first + index)]) item (prune index item)) :
    WithoutInItems gone path first items (items.mapIdx prune) := by
  induction items generalizing first prune with
  | nil => exact .nil
  | cons item rest ih =>
    rw [List.mapIdx_cons]
    refine .cons (h 0 item rfl) (ih fun index item hitem => ?_)
    have hrest := h (index + 1) item (by simpa using hitem)
    rwa [← Nat.add_assoc, Nat.add_right_comm] at hrest

end Json

namespace Plan

variable {plan : Plan} {nodes more entered others : List Pointer} {pointer child : Pointer} {value : Json}

/-! ## Pruning by some nodes -/

/-- The nodes that the member under a key is entered with. -/
def memberEntries (plan : Plan) (nodes : List Pointer) (key : String) : List Pointer :=
  nodes.flatMap fun p => (plan.node p).memberNodes key

/-- The nodes that an item is entered with. -/
def itemEntries (plan : Plan) (nodes : List Pointer) (index : ℕ) : List Pointer :=
  nodes.filterMap fun p => (plan.node p).outline.itemNode? index

/-- A value without the members that some nodes have no room for, whatever else applies to it. -/
def pruneBy (plan : Plan) (nodes : List Pointer) : Json → Json
  | .object members => .object (plan.pruneMembers (nodes.map plan.node) members)
  | .array items => .array (plan.pruneItems (nodes.map plan.node) 0 items)
  | value => value

lemma pruneAt_eq (entered : List Pointer) (value : Json) :
    plan.pruneAt entered value = plan.pruneBy (plan.joined entered) value := by
  cases value with
  | object members => rw [pruneAt]; rfl
  | array items => rw [pruneAt]; rfl
  | _ => rw [pruneAt] <;> first | rfl | simp

lemma memberEntries_subset (hw : plan.Whole) (hnodes : nodes ⊆ plan.places) (key : String) :
    plan.memberEntries nodes key ⊆ plan.places := by
  intro c hc
  obtain ⟨p, hp, hc⟩ := List.mem_flatMap.1 hc
  exact hw.member (hnodes hp) hc

lemma itemEntries_subset (hw : plan.Whole) (hnodes : nodes ⊆ plan.places) (index : ℕ) :
    plan.itemEntries nodes index ⊆ plan.places := by
  intro c hc
  obtain ⟨p, hp, hc⟩ := List.mem_filterMap.1 hc
  exact hw.item (hnodes hp) hc

lemma pruneMembers_eq (nodes : List Pointer) (members : Entries Json) :
    plan.pruneMembers (nodes.map plan.node) members
      = (members.filter fun member => allow (nodes.map plan.node) member.1).map fun member =>
          (member.1, plan.pruneAt (plan.memberEntries nodes member.1) member.2) := by
  induction members with
  | nil => rw [pruneMembers]; rfl
  | cons member rest ih =>
    obtain ⟨key, value⟩ := member
    rw [pruneMembers, ih, List.flatMap_map, List.filter_cons]
    cases allow (nodes.map plan.node) key <;> rfl

lemma pruneItems_eq (nodes : List Pointer) (first : ℕ) (items : List Json) :
    plan.pruneItems (nodes.map plan.node) first items
      = items.mapIdx fun index item => plan.pruneAt (plan.itemEntries nodes (first + index)) item := by
  induction items generalizing first with
  | nil => rw [pruneItems]; rfl
  | cons item rest ih =>
    rw [pruneItems, ih, List.mapIdx_cons, List.filterMap_map]
    simp only [Nat.add_zero, Nat.add_right_comm first 1, Nat.add_assoc]
    rfl

lemma pruneBy_object (nodes : List Pointer) (members : Entries Json) :
    plan.pruneBy nodes (.object members)
      = .object ((members.filter fun member => allow (nodes.map plan.node) member.1).map fun member =>
          (member.1, plan.pruneAt (plan.memberEntries nodes member.1) member.2)) :=
  congrArg Json.object (pruneMembers_eq nodes members)

lemma pruneBy_array (nodes : List Pointer) (items : List Json) :
    plan.pruneBy nodes (.array items)
      = .array (items.mapIdx fun index item => plan.pruneAt (plan.itemEntries nodes index) item) := by
  rw [pruneBy, pruneItems_eq]
  simp only [Nat.zero_add]

lemma allow_map_iff {key : String} : allow (nodes.map plan.node) key = true
    ↔ ∀ p ∈ nodes, (plan.node p).outline.closed = true → (plan.node p).covers key = true := by
  simp only [allow, List.all_map, List.all_eq_true, Function.comp_apply, Bool.or_eq_true,
    Bool.not_eq_true', ← imp_iff_not_or, ← Bool.not_eq_true]

/-! ## Assignments -/

/-- **Which nodes are assigned to a position** of a value. -/
inductive Assigned (plan : Plan) (value : Json) : List String → Pointer → Prop
  /-- The root, to the value. -/
  | root : Assigned plan value [] ""
  /-- What `allOf` or the reference of a node leads to, to where the node is. -/
  | conjunct {path pointer child} : Assigned plan value path pointer →
      child ∈ (plan.node pointer).outline.conjuncts → Assigned plan value path child
  /-- The node of a property, to the member under its name. -/
  | property {path pointer members key child} : Assigned plan value path pointer →
      value.walk? path = some (.object members) → Entries.contains key members = true →
      (key, child) ∈ (plan.node pointer).outline.properties → Assigned plan value (path ++ [key]) child
  /-- The node of a pattern, to the members whose keys have the pattern. -/
  | pattern {path pointer members key matcher child} : Assigned plan value path pointer →
      value.walk? path = some (.object members) → Entries.contains key members = true →
      (matcher, child) ∈ (plan.node pointer).patterns → matcher.accepts (.string key) = true →
      Assigned plan value (path ++ [key]) child
  /-- The node of the additional members, to those that the node does not cover. -/
  | additional {path pointer members key child} : Assigned plan value path pointer →
      value.walk? path = some (.object members) → Entries.contains key members = true →
      (plan.node pointer).outline.additional = some child → (plan.node pointer).covers key = false →
      Assigned plan value (path ++ [key]) child
  /-- The node that an item goes to, to the item. -/
  | item {path pointer items index child} : Assigned plan value path pointer →
      value.walk? path = some (.array items) → index < items.length →
      (plan.node pointer).outline.itemNode? index = some child →
      Assigned plan value (path ++ [Pointer.indexToken index]) child

/-- **A closed node refuses a member** of an object that it is assigned to, if it does not cover the key. -/
def Refuses (plan : Plan) (value : Json) (path : List String) (key : String) : Prop :=
  ∃ pointer, plan.Assigned value path pointer ∧ (plan.node pointer).outline.closed = true
    ∧ (plan.node pointer).covers key = false

variable {path : List String} {key : String}

lemma Assigned.joins (h : plan.Assigned value path pointer) (hjoins : plan.Joins pointer child) :
    plan.Assigned value path child := by
  induction hjoins with
  | refl => exact h
  | tail _ hedge ih => exact ih.conjunct hedge

lemma assigned_root_iff : plan.Assigned value [] child ↔ plan.Joins "" child := by
  constructor
  · intro h
    generalize hpath : ([] : List String) = path at h
    induction h with
    | root => exact Relation.ReflTransGen.refl
    | conjunct _ hedge ih => exact (ih hpath).tail hedge
    | _ => simp at hpath
  · exact Assigned.root.joins

/-- What is assigned to a member: what the nodes at the object have for the key, and what that joins. -/
lemma assigned_member_iff {members : Entries Json} (hwalk : value.walk? path = some (.object members))
    (hcontains : Entries.contains key members = true) : plan.Assigned value (path ++ [key]) child
      ↔ ∃ p, plan.Assigned value path p ∧ ∃ a ∈ (plan.node p).memberNodes key, plan.Joins a child := by
  constructor
  · intro h
    generalize hpath : path ++ [key] = below at h
    induction h with
    | root => simp at hpath
    | conjunct _ hedge ih =>
      obtain ⟨p, hp, a, ha, hjoins⟩ := ih hpath
      exact ⟨p, hp, a, ha, hjoins.tail hedge⟩
    | property hp _ _ hchild =>
      obtain ⟨rfl, rfl⟩ := List.append_singleton_inj.1 hpath
      exact ⟨_, hp, _, PlanNode.mem_memberNodes_iff.2 (Or.inl hchild), Relation.ReflTransGen.refl⟩
    | pattern hp _ _ hchild haccepts =>
      obtain ⟨rfl, rfl⟩ := List.append_singleton_inj.1 hpath
      exact ⟨_, hp, _, PlanNode.mem_memberNodes_iff.2 (Or.inr (Or.inl ⟨_, hchild, haccepts⟩)),
        Relation.ReflTransGen.refl⟩
    | additional hp _ _ hchild hcovers =>
      obtain ⟨rfl, rfl⟩ := List.append_singleton_inj.1 hpath
      exact ⟨_, hp, _, PlanNode.mem_memberNodes_iff.2 (Or.inr (Or.inr ⟨hchild, hcovers⟩)),
        Relation.ReflTransGen.refl⟩
    | item _ harray _ _ =>
      obtain ⟨rfl, -⟩ := List.append_singleton_inj.1 hpath
      simp [hwalk] at harray
  · rintro ⟨p, hp, a, ha, hjoins⟩
    refine Assigned.joins ?_ hjoins
    rcases PlanNode.mem_memberNodes_iff.1 ha with ha | ⟨matcher, ha, haccepts⟩ | ⟨ha, hcovers⟩
    · exact hp.property hwalk hcontains ha
    · exact hp.pattern hwalk hcontains ha haccepts
    · exact hp.additional hwalk hcontains ha hcovers

lemma assigned_item_iff {items : List Json} {index : ℕ} (hwalk : value.walk? path = some (.array items))
    (hindex : index < items.length) : plan.Assigned value (path ++ [Pointer.indexToken index]) child
      ↔ ∃ p, plan.Assigned value path p
        ∧ ∃ a, (plan.node p).outline.itemNode? index = some a ∧ plan.Joins a child := by
  constructor
  · intro h
    generalize hpath : path ++ [Pointer.indexToken index] = below at h
    induction h with
    | root => simp at hpath
    | conjunct _ hedge ih =>
      obtain ⟨p, hp, a, ha, hjoins⟩ := ih hpath
      exact ⟨p, hp, a, ha, hjoins.tail hedge⟩
    | item hp _ _ hchild =>
      obtain ⟨rfl, htoken⟩ := List.append_singleton_inj.1 hpath
      obtain rfl := Pointer.indexToken_injective htoken
      exact ⟨_, hp, _, hchild, Relation.ReflTransGen.refl⟩
    | property _ hobject _ _ | pattern _ hobject _ _ _ | additional _ hobject _ _ _ =>
      obtain ⟨rfl, -⟩ := List.append_singleton_inj.1 hpath
      simp [hwalk] at hobject
  · rintro ⟨p, hp, a, ha, hjoins⟩
    exact (hp.item hwalk hindex ha).joins hjoins

/-! ## What pruning takes out -/

/-- **The members that are refused are pruned**, at a position that is entered with nodes to which just those
join that are assigned to it.  By induction on the depth of the value there. -/
lemma without_pruneAt (hw : plan.Whole) (hvalue : value.WellFormed) {part : Json}
    (hwalk : value.walk? path = some part) (hentered : entered ⊆ plan.places)
    (hassigned : ∀ c, plan.Assigned value path c ↔ c ∈ plan.joined entered) :
    Json.Without (plan.Refuses value) path part (plan.pruneAt entered part) := by
  induction hdepth : part.depth using Nat.strongRecOn generalizing part path entered with
  | _ depth ih =>
    subst hdepth
    have hjoined := joined_subset hw hentered
    rw [pruneAt_eq]
    cases part with
    | object members =>
      have hsorted := (Json.wellFormed_of_walk? hvalue hwalk).1
      rw [pruneBy_object]
      refine .object (Json.withoutMembers_filter_map (allow ((plan.joined entered).map plan.node))
        (fun key => plan.pruneAt (plan.memberEntries (plan.joined entered) key)) (fun key => ?_)
        fun member hmember => ?_)
      · simp only [allow_map_iff, Refuses, hassigned, not_exists, not_and, Bool.not_eq_false]
      · have hlookup : Entries.lookup member.1 members = some member.2 :=
          Entries.lookup_of_mem hsorted hmember
        have hbelow : value.walk? (path ++ [member.1]) = some member.2 := by
          rw [Json.walk?_append, hwalk, Option.bind_some, Json.walk?_object hlookup]
          rfl
        have hsubset := memberEntries_subset hw hjoined member.1
        refine ih _ (Nat.lt_succ_of_le (Json.depth_le_of_mem_members hmember)) hbelow hsubset
          (fun c => ?_) rfl
        have hcontains : Entries.contains member.1 members = true :=
          List.any_eq_true.2 ⟨member, hmember, decide_eq_true rfl⟩
        -- what is assigned to the member joins the nodes that it is entered with
        rw [assigned_member_iff hwalk hcontains, mem_joined_iff hw hsubset]
        simp only [hassigned, memberEntries, List.mem_flatMap]
        tauto
    | array items =>
      rw [pruneBy_array]
      refine .array (Json.withoutInItems_mapIdx fun index item hitem => ?_)
      have hbelow : value.walk? (path ++ [Pointer.indexToken index]) = some item := by
        rw [Json.walk?_append, hwalk, Option.bind_some, Json.walk?_array hitem]
        rfl
      have hsubset := itemEntries_subset hw hjoined index
      rw [Nat.zero_add]
      refine ih _ (Nat.lt_succ_of_le (Json.depth_le_of_mem_items (List.mem_of_getElem? hitem))) hbelow hsubset
        (fun c => ?_) rfl
      rw [assigned_item_iff hwalk (List.getElem?_eq_some_iff.1 hitem).1, mem_joined_iff hw hsubset]
      simp only [hassigned, itemEntries, List.mem_filterMap]
      tauto
    | null => exact .null
    | bool b => exact .bool
    | number n => exact .number
    | string s => exact .string

/-- **Pruning takes out the members that are refused**, and nothing else. -/
lemma without_prune (hw : plan.Whole) (hvalue : value.WellFormed) :
    Json.Without (plan.Refuses value) [] value (plan.prune value) := by
  have hroot : [""] ⊆ plan.places := by simpa using hw.root
  refine without_pruneAt hw hvalue rfl hroot fun c => ?_
  rw [assigned_root_iff, mem_joined_iff hw hroot]
  simp

end Plan

end SchemaAlgebra
