import SchemaAlgebra.Proofs.Arenas

/-!
# Which nodes of an arena are active

A node is active if it has transforms, or leads to one that has, in any number of steps.  To find these
nodes, those with transforms are marked first, and then those that lead to a marked one, round by round, until
a round brings no new mark (`Arena.settle`).  In a round, a mark counts for the nodes that come after it.

* `Arena.Marking` — one new mark: it is right if those before it are, and none of them is lost.
* `Arena.exists_settle` — marking ends, as every round but the last leaves fewer nodes without a mark, and then
  no node needs a mark.
* `Arena.marked_iff` — so the marks are back along all ways from nodes with transforms, and on no others.
* **`Arena.settle_exact`** — marking finds the nodes that lead to transforms, the active nodes of the plan.
-/

namespace SchemaAlgebra

namespace Arena

/-! ## Marking -/

/-- The places that the node at a place leads to. -/
def childrenAt (arena : Arena) (place : ℕ) : List ℕ :=
  (arena[place]?.map Cell.children).getD []

lemma childrenAt_of_cell {arena : Arena} {place : ℕ} {cell : Cell} (h : arena[place]? = some cell) :
    arena.childrenAt place = cell.children := by
  rw [childrenAt, h]
  rfl

/-- Marks for the nodes that have transforms. -/
def carrying (arena : Arena) : List Bool :=
  arena.map fun cell => !cell.chain.isEmpty

/-- Marks the node at a place if it leads to a marked one, and notes that there is a new mark.  It fails at
a place where there is no node. -/
def markAt (arena : Arena) (state : List Bool × Bool) (place : ℕ) : Option (List Bool × Bool) := do
  if ← state.1[place]? then return state
  let cell ← arena[place]?
  if ← cell.children.anyM fun child => state.1[child]? then return (state.1.set place true, true)
  return state

/-- Marks nodes in the order of their places, each by the marks that there are then. -/
def markRound (arena : Arena) (marks : List Bool) : Option (List Bool × Bool) :=
  (List.range arena.length).foldlM arena.markAt (marks, false)

/-- Marks nodes round by round, until a round brings no new mark; it fails if there are not enough rounds. -/
def settle (arena : Arena) : ℕ → List Bool → Option (List Bool)
  | 0, _ => none
  | rounds + 1, marks => do
    let (next, changed) ← arena.markRound marks
    if changed then settle arena rounds next else return next

/-! ## One mark -/

/-- A node that is not marked, and leads to one that is, is marked. -/
inductive Marking (arena : Arena) : List Bool → List Bool → Prop
  | mark {marks place child} : marks[place]? = some false → child ∈ arena.childrenAt place →
      marks[child]? = some true → Marking arena marks (marks.set place true)

variable {arena : Arena} {marks next : List Bool} {place : ℕ}

lemma Marking.length_eq (h : arena.Marking marks next) : next.length = marks.length := by
  cases h
  exact List.length_set

/-- Marks get more. -/
lemma Marking.count_lt (h : arena.Marking marks next) : next.count false < marks.count false := by
  cases h with
  | @mark place child hplace _ _ =>
    obtain ⟨hlt, hfalse⟩ := List.getElem?_eq_some_iff.1 hplace
    have hpos : 0 < marks.count false := List.count_pos_iff.2 (hfalse ▸ List.getElem_mem hlt)
    have hcount : (marks.set place true).count false = marks.count false - 1 := by
      rw [List.count_set hlt, hfalse]
      simp
    omega

/-- A node that is marked stays so. -/
lemma Marking.keeps (h : arena.Marking marks next) (hplace : marks[place]? = some true) :
    next[place]? = some true := by
  cases h with
  | @mark other _ hother _ _ =>
    have hne : other ≠ place := by
      rintro rfl
      simp [hplace] at hother
    rwa [List.getElem?_set_ne hne]

/-- A node leads to one with transforms. -/
def LeadsToChain (arena : Arena) (place : ℕ) : Prop :=
  ∃ target cell, Graph.Leads arena.childrenAt place target ∧ arena[target]? = some cell ∧ cell.chain ≠ []

/-- Only nodes that lead to one with transforms are marked. -/
lemma Marking.sound (h : arena.Marking marks next)
    (hmarks : ∀ place, marks[place]? = some true → arena.LeadsToChain place)
    (hplace : next[place]? = some true) : arena.LeadsToChain place := by
  cases h with
  | @mark other child _ hchild hmarked =>
    by_cases heq : other = place
    · obtain ⟨target, cell, hleads, hcell⟩ := hmarks child hmarked
      exact ⟨target, cell, Relation.ReflTransGen.head (heq ▸ hchild) hleads, hcell⟩
    · rw [List.getElem?_set_ne heq] at hplace
      exact hmarks place hplace

/-! ## Rounds -/

/-- The node at a place needs no mark: it has one, or it leads to no node that has one. -/
def SettledAt (arena : Arena) (marks : List Bool) (place : ℕ) : Prop :=
  ∀ child ∈ arena.childrenAt place, marks[child]? = some true → marks[place]? = some true

lemma anyM_getElem? {places : List ℕ} (h : ∀ place ∈ places, place < marks.length) :
    (places.anyM fun place => marks[place]?) = some (places.any fun place => marks[place]? = some true) := by
  induction places with
  | nil => rfl
  | cons place places ih =>
    obtain ⟨hplace, hplaces⟩ := List.forall_mem_cons.1 h
    have hmark := List.getElem?_eq_getElem hplace
    rw [List.anyM, List.any_cons, ih hplaces, hmark]
    cases marks[place] <;> rfl

/-- **What happens at a place.**  A node is marked, or it needs no mark. -/
lemma markAt_cases (hclosed : arena.Closed) (hlength : marks.length = arena.length)
    (hplace : place < arena.length) (changed : Bool) :
    (arena.markAt (marks, changed) place = some (marks, changed) ∧ arena.SettledAt marks place)
      ∨ ∃ next, arena.markAt (marks, changed) place = some (next, true) ∧ arena.Marking marks next := by
  have hcell : arena[place]? = some arena[place] := List.getElem?_eq_getElem hplace
  have hchildren := childrenAt_of_cell hcell
  have hany : (arena[place].children.anyM fun child => marks[child]?)
      = some (arena[place].children.any fun child => marks[child]? = some true) :=
    anyM_getElem? fun child hchild => hlength ▸ hclosed _ (List.getElem_mem hplace) child hchild
  obtain ⟨mark, hmark⟩ : ∃ mark, marks[place]? = some mark :=
    ⟨_, List.getElem?_eq_getElem (hlength ▸ hplace)⟩
  cases mark with
  | true => exact Or.inl ⟨by simp [markAt, hmark], fun _ _ _ => hmark⟩
  | false =>
    cases hfound : arena[place].children.any fun child => marks[child]? = some true with
    | false =>
      refine Or.inl ⟨by simp [markAt, hmark, hcell, hany, hfound], fun child hchild hmarked => ?_⟩
      rw [List.any_eq_false] at hfound
      exact absurd (decide_eq_true hmarked) (hfound child (hchildren ▸ hchild))
    | true =>
      obtain ⟨child, hchild, hmarked⟩ := List.any_eq_true.1 hfound
      exact Or.inr ⟨marks.set place true, by simp [markAt, hmark, hcell, hany, hfound],
        .mark hmark (hchildren ▸ hchild) (of_decide_eq_true hmarked)⟩

/-- What some of a round does. -/
structure Rounds (arena : Arena) (places : List ℕ) (before after : List Bool × Bool) : Prop where
  /-- Nodes are marked, one after the other. -/
  steps : Relation.ReflTransGen arena.Marking before.1 after.1
  /-- If there is no new mark, none is needed. -/
  settled : after.2 = false → after = before ∧ ∀ place ∈ places, arena.SettledAt before.1 place
  /-- A new mark is noted. -/
  fewer : after.2 = true → before.2 = true ∨ after.1.count false < before.1.count false

lemma length_eq_of_steps (h : Relation.ReflTransGen arena.Marking marks next) :
    next.length = marks.length := by
  induction h with
  | refl => rfl
  | tail _ hstep ih => rw [hstep.length_eq, ih]

lemma count_le_of_steps (h : Relation.ReflTransGen arena.Marking marks next) :
    next.count false ≤ marks.count false := by
  induction h with
  | refl => exact le_rfl
  | tail _ hstep ih => exact hstep.count_lt.le.trans ih

/-- **A round** goes through: every place that it looks at is that of a node. -/
lemma exists_foldlM_markAt (hclosed : arena.Closed) {places : List ℕ}
    (hplaces : ∀ place ∈ places, place < arena.length) (state : List Bool × Bool)
    (hlength : state.1.length = arena.length) :
    ∃ after, places.foldlM arena.markAt state = some after ∧ arena.Rounds places state after := by
  induction places generalizing state with
  | nil => exact ⟨state, rfl, Relation.ReflTransGen.refl, fun _ => ⟨rfl, nofun⟩, Or.inl⟩
  | cons place places ih =>
    obtain ⟨hplace, hplaces⟩ := List.forall_mem_cons.1 hplaces
    obtain ⟨marks, changed⟩ := state
    rcases markAt_cases hclosed hlength hplace changed with ⟨hstep, hsettled⟩ | ⟨next, hstep, hmarking⟩
    · obtain ⟨after, hafter, hrest⟩ := ih hplaces (marks, changed) hlength
      refine ⟨after, ?_, hrest.steps, fun hsame => ?_, hrest.fewer⟩
      · rw [List.foldlM_cons, hstep, Option.bind_eq_bind, Option.bind_some, hafter]
      · obtain ⟨heq, hall⟩ := hrest.settled hsame
        exact ⟨heq, List.forall_mem_cons.2 ⟨hsettled, hall⟩⟩
    · obtain ⟨after, hafter, hrest⟩ := ih hplaces (next, true) (hmarking.length_eq.trans hlength)
      refine ⟨after, ?_, hrest.steps.head hmarking, fun hsame => ?_, fun _ => Or.inr ?_⟩
      · rw [List.foldlM_cons, hstep, Option.bind_eq_bind, Option.bind_some, hafter]
      · -- the mark that was just made is noted to the end
        rw [(hrest.settled hsame).1] at hsame
        simp at hsame
      · exact (count_le_of_steps hrest.steps).trans_lt hmarking.count_lt

/-- **Marking ends**, after as many rounds as there are nodes without a mark, or fewer, and one more. -/
lemma exists_settle (hclosed : arena.Closed) (marks : List Bool) (hlength : marks.length = arena.length) :
    ∃ final, (∀ rounds, marks.count false < rounds → arena.settle rounds marks = some final)
      ∧ Relation.ReflTransGen arena.Marking marks final
      ∧ ∀ place < arena.length, arena.SettledAt final place := by
  induction hcount : marks.count false using Nat.strongRecOn generalizing marks with
  | ind count ih =>
    subst hcount
    obtain ⟨⟨next, changed⟩, hround, hnext⟩ := exists_foldlM_markAt hclosed
      (fun place hplace => List.mem_range.1 hplace) (marks, false) hlength
    have hsettle : ∀ rounds, arena.settle (rounds + 1) marks
        = if changed then arena.settle rounds next else some next := fun rounds => by
      simp [settle, markRound, hround]
    cases changed with
    | false =>
      obtain ⟨heq, hsettled⟩ := hnext.settled rfl
      obtain rfl : next = marks := (Prod.mk.inj heq).1
      refine ⟨next, fun rounds hrounds => ?_, Relation.ReflTransGen.refl,
        fun place hplace => hsettled place (List.mem_range.2 hplace)⟩
      obtain ⟨rounds, rfl⟩ := Nat.exists_eq_add_one_of_ne_zero (Nat.ne_zero_of_lt hrounds)
      exact hsettle rounds
    | true =>
      have hfewer := (hnext.fewer rfl).resolve_left (by simp)
      have hlength' : next.length = arena.length := (length_eq_of_steps hnext.steps).trans hlength
      obtain ⟨final, hfinal, hsteps, hsettled⟩ := ih _ hfewer next hlength' rfl
      refine ⟨final, fun rounds hrounds => ?_, hnext.steps.trans hsteps, hsettled⟩
      obtain ⟨rounds, rfl⟩ := Nat.exists_eq_add_one_of_ne_zero (Nat.ne_zero_of_lt hrounds)
      exact (hsettle rounds).trans (hfinal rounds (hfewer.trans_le (Nat.le_of_lt_succ hrounds)))

/-! ## What is marked -/

lemma carrying_eq_true : arena.carrying[place]? = some true
    ↔ ∃ cell, arena[place]? = some cell ∧ cell.chain ≠ [] := by
  simp [carrying]

lemma keeps_of_steps (h : Relation.ReflTransGen arena.Marking marks next)
    (hplace : marks[place]? = some true) : next[place]? = some true := by
  induction h with
  | refl => exact hplace
  | tail _ hstep ih => exact hstep.keeps ih

lemma sound_of_steps (h : Relation.ReflTransGen arena.Marking marks next)
    (hmarks : ∀ place, marks[place]? = some true → arena.LeadsToChain place) :
    ∀ place, next[place]? = some true → arena.LeadsToChain place := by
  induction h with
  | refl => exact hmarks
  | tail _ hstep ih => exact fun _ => hstep.sound ih

lemma lt_length_of_mem_childrenAt {child : ℕ} (h : child ∈ arena.childrenAt place) :
    place < arena.length := by
  rw [childrenAt] at h
  cases hcell : arena[place]? with
  | none => simp [hcell] at h
  | some cell => exact (List.getElem?_eq_some_iff.1 hcell).1

/-- Where no node needs a mark, marks go back from a node to all that lead to it. -/
lemma marked_of_leads (hsettled : ∀ place < arena.length, arena.SettledAt marks place) {target : ℕ}
    (hleads : Graph.Leads arena.childrenAt place target) (htarget : marks[target]? = some true) :
    marks[place]? = some true := by
  induction hleads using Relation.ReflTransGen.head_induction_on with
  | refl => exact htarget
  | head hchild _ ih => exact hsettled _ (lt_length_of_mem_childrenAt hchild) _ hchild ih

/-- The nodes with transforms, and those that lead to them, are the ones that are marked in the end. -/
lemma marked_iff (hsteps : Relation.ReflTransGen arena.Marking arena.carrying marks)
    (hsettled : ∀ place < arena.length, arena.SettledAt marks place) :
    marks[place]? = some true ↔ arena.LeadsToChain place := by
  constructor
  · refine sound_of_steps hsteps (fun place hplace => ?_) place
    obtain ⟨cell, hcell, hchain⟩ := carrying_eq_true.1 hplace
    exact ⟨place, cell, Relation.ReflTransGen.refl, hcell, hchain⟩
  · rintro ⟨target, cell, hleads, hcell, hchain⟩
    exact marked_of_leads hsettled hleads (keeps_of_steps hsteps (carrying_eq_true.2 ⟨cell, hcell, hchain⟩))

/-! ## Complete arenas -/

variable {schema : Fragment} {options : Options} {document : Json} {pointer : Pointer}

lemma exists_cell (h : arena.pointers[place]? = some pointer) :
    ∃ cell, arena[place]? = some cell ∧ cell.pointer = pointer := by
  rw [pointers, List.getElem?_map] at h
  exact Option.map_eq_some_iff.1 h

section

variable (hcomplete : ∀ cell ∈ arena, Complete schema options document arena cell)

include hcomplete

/-- Where places lead, the pointers there do. -/
lemma leads_of_places (hplace : arena.pointers[place]? = some pointer) {target : ℕ}
    (h : Graph.Leads arena.childrenAt place target) :
    ∃ found, arena.pointers[target]? = some found ∧ Graph.Leads (Outline.edges document) pointer found := by
  induction h with
  | refl => exact ⟨pointer, hplace, Relation.ReflTransGen.refl⟩
  | tail _ hchild ih =>
    obtain ⟨between, hbetween, hleads⟩ := ih
    obtain ⟨cell, hcell, rfl⟩ := exists_cell hbetween
    obtain ⟨found, hedge, hfound⟩ :=
      (hcomplete cell (List.mem_of_getElem? hcell)).exists_edge (childrenAt_of_cell hcell ▸ hchild)
    exact ⟨found, hfound, hleads.tail hedge⟩

/-- Where pointers lead, their places do. -/
lemma leads_of_pointers (hplace : arena.pointers[place]? = some pointer) {found : Pointer}
    (h : Graph.Leads (Outline.edges document) pointer found) :
    ∃ target, arena.pointers[target]? = some found ∧ Graph.Leads arena.childrenAt place target := by
  induction h with
  | refl => exact ⟨place, hplace, Relation.ReflTransGen.refl⟩
  | tail _ hedge ih =>
    obtain ⟨between, hbetween, hleads⟩ := ih
    obtain ⟨cell, hcell, rfl⟩ := exists_cell hbetween
    obtain ⟨target, hchild, htarget⟩ := (hcomplete cell (List.mem_of_getElem? hcell)).exists_place hedge
    exact ⟨target, htarget, hleads.tail (childrenAt_of_cell hcell ▸ hchild)⟩

end

end Arena

/-! ## Active nodes of plans -/

namespace Plan

variable {matchers : MatcherBuilder} {schema : Fragment} {options : Options} {plan : Plan}

lemma node_of_mem (hnodup : plan.places.Nodup) {node : PlanNode} (hnode : node ∈ plan.nodes) :
    plan.node node.outline.pointer = node := by
  have hfound := node?_of_mem_places (List.mem_map_of_mem hnode)
  have hpointer := plan.pointer_node node.outline.pointer
  exact List.inj_on_of_nodup_map hnodup (List.mem_of_find?_eq_some hfound) hnode hpointer

/-- **Active nodes** of a compiled plan lead to transforms in its arena. -/
lemma active_iff_leadsToChain (h : compile matchers schema options = .ok plan) {place : ℕ} {node : PlanNode}
    (hnode : plan.nodes[place]? = some node) :
    node.active = true ↔ plan.arena.LeadsToChain place := by
  obtain ⟨-, hnodup, hcomplete, -⟩ := Arena.grown_root (build_arena h (Nat.lt_succ_self _))
  have hplaces : plan.arena.pointers = plan.places := List.map_map
  have hplace : plan.arena.pointers[place]? = some node.outline.pointer := by
    rw [hplaces, places, List.getElem?_map, hnode]
    rfl
  have hchain : ∀ (target : ℕ) found, plan.arena.pointers[target]? = some found →
      ∃ cell, plan.arena[target]? = some cell ∧ cell.chain = (plan.node found).chain := by
    intro target found hfound
    rw [hplaces, places, List.getElem?_map] at hfound
    obtain ⟨other, hother, rfl⟩ := Option.map_eq_some_iff.1 hfound
    refine ⟨_, by rw [arena, List.getElem?_map, hother]; rfl, ?_⟩
    rw [node_of_mem (hplaces ▸ hnodup) (List.mem_of_getElem? hother)]
  have hmem : node ∈ plan.nodes := List.mem_of_getElem? hnode
  rw [← node_of_mem (hplaces ▸ hnodup) hmem, active_iff h (pointer_mem_nodes h hmem)]
  constructor
  · rintro ⟨found, hleads, hne⟩
    obtain ⟨target, htarget, hleads⟩ := Arena.leads_of_pointers hcomplete hplace hleads
    obtain ⟨cell, hcell, heq⟩ := hchain target found htarget
    exact ⟨target, cell, hleads, hcell, heq ▸ hne⟩
  · rintro ⟨target, cell, hleads, hcell, hne⟩
    obtain ⟨found, hfound, hleads⟩ := Arena.leads_of_places hcomplete hplace hleads
    obtain ⟨other, hother, heq⟩ := hchain target found hfound
    obtain rfl : cell = other := Option.some.inj (hcell.symm.trans hother)
    exact ⟨found, hleads, heq ▸ hne⟩

end Plan

namespace Arena

/-- **Marking finds what leads to transforms.**  In an arena where nodes lead to nodes only, in circles or
not, marking ends, with a mark for every node from which one with transforms can be reached, in any number
of steps, and no other.  These are the active nodes of the plan. -/
theorem settle_exact (arena : Arena) (hclosed : arena.Closed) :
    ∃ marks, (∀ rounds, arena.length < rounds → arena.settle rounds arena.carrying = some marks)
      ∧ marks.length = arena.length
      ∧ (∀ place, marks[place]? = some true ↔ ∃ target cell, Graph.Leads arena.childrenAt place target
          ∧ arena[target]? = some cell ∧ cell.chain ≠ [])
      ∧ ∀ matchers schema options plan, Plan.compile matchers schema options = .ok plan →
          plan.arena = arena → plan.nodes.map PlanNode.active = marks := by
  have hlength : arena.carrying.length = arena.length := List.length_map _
  obtain ⟨marks, hmarks, hsteps, hsettled⟩ := exists_settle hclosed arena.carrying hlength
  have hmarked : ∀ place, marks[place]? = some true ↔ arena.LeadsToChain place := fun _ =>
    marked_iff hsteps hsettled
  have hsame : marks.length = arena.length := (length_eq_of_steps hsteps).trans hlength
  refine ⟨marks, fun rounds hrounds => hmarks rounds ?_, hsame, hmarked, ?_⟩
  · exact (List.count_le_length.trans hlength.le).trans_lt hrounds
  · rintro matchers schema options plan hplan rfl
    have hnodes : plan.arena.length = plan.nodes.length := List.length_map _
    refine List.ext_getElem (by rw [List.length_map, hsame, hnodes]) fun place hplace hplace' => ?_
    rw [List.length_map] at hplace
    rw [Bool.eq_iff_iff, List.getElem_map,
      Plan.active_iff_leadsToChain hplan (List.getElem?_eq_getElem hplace), ← hmarked,
      List.getElem?_eq_getElem hplace', Option.some.injEq]

/-- Two nodes in a circle, of which one leads on to a node with a transform, and one that leads to itself. -/
def circles : Arena :=
  [⟨"", [], [1]⟩, ⟨"/properties/a", [], [0, 2]⟩,
    ⟨"/properties/b", [("same", fun _ value => { outcome := .ok value })], []⟩, ⟨"/properties/c", [], [3]⟩]

/-- The first node leads to the transform by way of the second, which comes after it. -/
theorem circles_settle : circles.Closed
    ∧ (∀ rounds, 4 < rounds → circles.settle rounds circles.carrying = some [true, true, true, false])
    ∧ ∀ place, [true, true, true, false][place]? = some true ↔
        ∃ target cell, Graph.Leads circles.childrenAt place target ∧ circles[target]? = some cell
          ∧ cell.chain ≠ [] := by
  have hclosed : circles.Closed := by decide
  obtain ⟨marks, hsettle, -, hmarks, -⟩ := settle_exact circles hclosed
  obtain rfl : [true, true, true, false] = marks :=
    Option.some.inj ((by rfl : _ = circles.settle 5 circles.carrying).trans (hsettle 5 (by decide)))
  exact ⟨hclosed, hsettle, hmarks⟩

end Arena

end SchemaAlgebra
