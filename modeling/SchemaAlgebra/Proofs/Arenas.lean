import Mathlib.Order.Bounds.Basic
import SchemaAlgebra.Proofs.Subschemas
import SchemaAlgebra.Proofs.Sweeping
import SchemaAlgebra.Proofs.Trace

/-!
# Plans as arenas

The nodes of a plan can be kept in an arena, where a node is known by its place and gives the places of the
nodes that it leads to.  Such an arena is built depth first (`Arena.build`): a node takes the next place,
then what it leads to is built, and with the places of that the node is completed.  References may lead back
to a node that is not complete, so building is given the number of steps that it may take.

* `Arena.Complete`, `Arena.Grown` — the nodes that building adds are complete when it is done.
* `Arena.Follows` — building goes the way of the walk through the nodes of the document, so it ends.
* `Arena.build_eq` — what building comes to, and `Plan.build_arena` — that it has the nodes of the plan.
* `Plan.Unfailing` — neither runs nor sweeps by a plan ask for a node that the plan does not have.
* **`Arena.build_ends_in_order`** — building ends for every document, and the arena is then in order: closed,
  without repetitions, and with no nodes but the root and those that it leads to.
-/

namespace SchemaAlgebra

namespace Outline

variable {document : Json} {pointer : Pointer}

/-- Pointers that hold the root of a document, and all that the schemas at them lead to. -/
structure Hereditary (document : Json) (nodes : Set Pointer) : Prop where
  root : "" ∈ nodes
  children : ∀ pointer ∈ nodes, ∀ keywords child, document.resolve? pointer = some (.object keywords) →
    Visits document pointer keywords child → child ∈ nodes

lemma Hereditary.mem_of_leads {nodes : Set Pointer} (h : Hereditary document nodes)
    (hleads : Graph.Leads (edges document) "" pointer) : pointer ∈ nodes := by
  induction hleads with
  | refl => exact h.root
  | tail _ hedge ih =>
    obtain ⟨keywords, hvalue, hvisits⟩ := mem_edges_iff.1 hedge
    exact h.children _ ih keywords _ hvalue hvisits

end Outline

/-- A node of an arena.  The nodes that it leads to are given by their places. -/
structure Cell where
  /-- The pointer of the node. -/
  pointer : Pointer
  /-- The transforms of the node. -/
  chain : Chain := []
  /-- The places of the nodes that it leads to. -/
  children : List ℕ := []

/-- The node at a pointer, before it is completed. -/
def Cell.begun (pointer : Pointer) : Cell :=
  { pointer := pointer }

/-- The nodes of a plan, in the order in which they are met. -/
abbrev Arena := List Cell

namespace Arena

/-- The pointers of the nodes. -/
def pointers (arena : Arena) : List Pointer :=
  arena.map Cell.pointer

/-- The nodes lead to nodes only: every place that is given is that of a node. -/
def Closed (arena : Arena) : Prop :=
  ∀ cell ∈ arena, ∀ place ∈ cell.children, place < arena.length

instance (arena : Arena) : Decidable arena.Closed :=
  inferInstanceAs (Decidable (∀ cell ∈ arena, ∀ place ∈ cell.children, place < arena.length))

/-! ## Building -/

/-- Why building stops before its end. -/
inductive Stop where
  /-- The transforms of a node are refused. -/
  | refused (error : CompileError)
  /-- The budget of steps is exceeded. -/
  | exhausted

/-- A way to build the node at a pointer: the result is its place, and the arena then. -/
abbrev Builder := Arena → Pointer → Except Stop (ℕ × Arena)

/-- Builds nodes one after another. -/
def buildAll (builder : Builder) : Arena → List Pointer → Except Stop (List ℕ × Arena)
  | arena, [] => .ok ([], arena)
  | arena, pointer :: pointers => do
    let (place, arena) ← builder arena pointer
    let (places, arena) ← buildAll builder arena pointers
    return (place :: places, arena)

/-- Builds the node at a pointer, within a budget of steps.  A node that has a place is not built again.
Any other takes the next place before the nodes that it leads to are built, and is completed after them. -/
def build (schema : Fragment) (options : Options) (document : Json) : ℕ → Builder
  | 0, _, _ => .error .exhausted
  | steps + 1, arena, pointer =>
    if pointer ∈ arena.pointers then .ok (arena.pointers.idxOf pointer, arena)
    else do
      let chain ← (Plan.chainAt schema options document pointer).mapError .refused
      let (places, arena') ← buildAll (build schema options document steps)
        (arena ++ [Cell.begun pointer]) (Outline.edges document pointer)
      return (arena.length, arena'.set arena.length ⟨pointer, chain, places⟩)

variable {schema : Fragment} {options : Options} {document : Json} {arena new more : Arena}
  {pointer : Pointer} {steps : ℕ}

@[simp] lemma pointers_append (arena more : Arena) :
    pointers (arena ++ more) = arena.pointers ++ more.pointers :=
  List.map_append

@[simp] lemma length_pointers (arena : Arena) : arena.pointers.length = arena.length :=
  List.length_map _

@[simp] lemma pointers_begun (arena : Arena) (pointer : Pointer) :
    pointers (arena ++ [Cell.begun pointer]) = arena.pointers ++ [pointer] :=
  List.map_append

/-! ## What is built -/

/-- A node is complete: it has its transforms, and the nodes that it leads to stand at the places that it
gives. -/
structure Complete (schema : Fragment) (options : Options) (document : Json) (arena : Arena)
    (cell : Cell) : Prop where
  chain : Plan.chainAt schema options document cell.pointer = .ok cell.chain
  children : cell.children.map (arena.pointers[·]?) = (Outline.edges document cell.pointer).map some

/-- An arena has grown by new nodes: they are complete, no two nodes are the same, and the goals lead to
them. -/
structure Grown (schema : Fragment) (options : Options) (document : Json) (arena : Arena)
    (goals : List Pointer) (new : Arena) : Prop where
  nodup : arena.pointers.Nodup → (arena ++ new).pointers.Nodup
  complete : ∀ cell ∈ new, Complete schema options document (arena ++ new) cell
  reached : ∀ found ∈ new.pointers, ∃ goal ∈ goals, Graph.Leads (Outline.edges document) goal found

lemma getElem?_pointers_append {place : ℕ} (h : arena.pointers[place]? = some pointer) (more : Arena) :
    (pointers (arena ++ more))[place]? = some pointer := by
  rw [pointers_append, List.getElem?_append_left (List.getElem?_eq_some_iff.1 h).1, h]

/-- Places stay what they are when more nodes come after them. -/
lemma map_getElem?_append {places : List ℕ} {goals : List Pointer}
    (h : places.map (arena.pointers[·]?) = goals.map some) (more : Arena) :
    places.map ((pointers (arena ++ more))[·]?) = goals.map some := by
  induction places generalizing goals with
  | nil => simpa using h
  | cons place places ih =>
    cases goals with
    | nil => simp at h
    | cons goal goals =>
      rw [List.map_cons, List.map_cons, List.cons.injEq] at h ⊢
      exact ⟨getElem?_pointers_append h.1 more, ih h.2⟩

lemma Complete.exists_edge {cell : Cell} {place : ℕ} (h : Complete schema options document arena cell)
    (hplace : place ∈ cell.children) :
    ∃ child ∈ Outline.edges document cell.pointer, arena.pointers[place]? = some child := by
  have hfound : arena.pointers[place]? ∈ (Outline.edges document cell.pointer).map some :=
    h.children ▸ List.mem_map_of_mem hplace
  obtain ⟨child, hchild, heq⟩ := List.mem_map.1 hfound
  exact ⟨child, hchild, heq.symm⟩

lemma Complete.exists_place {cell : Cell} {child : Pointer} (h : Complete schema options document arena cell)
    (hchild : child ∈ Outline.edges document cell.pointer) :
    ∃ place ∈ cell.children, arena.pointers[place]? = some child := by
  have hsome : some child ∈ cell.children.map (arena.pointers[·]?) :=
    h.children ▸ List.mem_map_of_mem hchild
  exact List.mem_map.1 hsome

lemma Complete.append {cell : Cell} (h : Complete schema options document arena cell) (more : Arena) :
    Complete schema options document (arena ++ more) cell :=
  ⟨h.chain, map_getElem?_append h.children more⟩

lemma grown_nil (arena : Arena) (goals : List Pointer) :
    Grown schema options document arena goals [] where
  nodup := by simp
  complete := by simp
  reached := by simp [pointers]

lemma Grown.trans {goals others : List Pointer} (h : Grown schema options document arena goals new)
    (hmore : Grown schema options document (arena ++ new) others more) :
    Grown schema options document arena (goals ++ others) (new ++ more) where
  nodup := fun harena => by
    rw [← List.append_assoc]
    exact hmore.nodup (h.nodup harena)
  complete := fun cell hcell => by
    rw [← List.append_assoc]
    rcases List.mem_append.1 hcell with hcell | hcell
    · exact (h.complete cell hcell).append more
    · exact hmore.complete cell hcell
  reached := fun found hfound => by
    rw [pointers_append] at hfound
    rcases List.mem_append.1 hfound with hfound | hfound
    · obtain ⟨goal, hgoal, hleads⟩ := h.reached found hfound
      exact ⟨goal, List.mem_append_left _ hgoal, hleads⟩
    · obtain ⟨goal, hgoal, hleads⟩ := hmore.reached found hfound
      exact ⟨goal, List.mem_append_right _ hgoal, hleads⟩

/-- What each part of a building does, the parts do together. -/
lemma grown_buildAll {builder : Builder}
    (hbuilder : ∀ arena pointer place after, builder arena pointer = .ok (place, after) →
      ∃ new, after = arena ++ new ∧ Grown schema options document arena [pointer] new
        ∧ after.pointers[place]? = some pointer)
    {goals : List Pointer} {places : List ℕ} {after : Arena}
    (h : buildAll builder arena goals = .ok (places, after)) :
    ∃ new, after = arena ++ new ∧ Grown schema options document arena goals new
      ∧ places.map (after.pointers[·]?) = goals.map some := by
  induction goals generalizing arena places after with
  | nil =>
    obtain ⟨rfl, rfl⟩ := Prod.mk.inj (Except.ok.inj h)
    exact ⟨[], (List.append_nil _).symm, grown_nil _ _, rfl⟩
  | cons goal goals ih =>
    obtain ⟨⟨place, middle⟩, hfirst, h⟩ := bind_eq_ok.1 h
    obtain ⟨⟨others, last⟩, hrest, h⟩ := bind_eq_ok.1 h
    obtain ⟨rfl, rfl⟩ := Prod.mk.inj (Except.ok.inj h)
    obtain ⟨new, rfl, hnew, hplace⟩ := hbuilder _ _ _ _ hfirst
    obtain ⟨more, rfl, hmore, hplaces⟩ := ih hrest
    refine ⟨new ++ more, List.append_assoc _ _ _, hnew.trans hmore, ?_⟩
    rw [List.map_cons, List.map_cons, hplaces, getElem?_pointers_append hplace more]

/-- The node that took a place is completed there. -/
lemma Grown.completed {chain : Chain} {places : List ℕ} (hfresh : pointer ∉ arena.pointers)
    (hchain : Plan.chainAt schema options document pointer = .ok chain)
    (h : Grown schema options document (arena ++ [Cell.begun pointer])
      (Outline.edges document pointer) new)
    (hplaces : places.map ((pointers (arena ++ [Cell.begun pointer] ++ new))[·]?)
      = (Outline.edges document pointer).map some) :
    Grown schema options document arena [pointer] (⟨pointer, chain, places⟩ :: new) := by
  have hpointers : pointers (arena ++ ⟨pointer, chain, places⟩ :: new)
      = pointers (arena ++ [Cell.begun pointer] ++ new) := by
    simp [pointers, Cell.begun]
  refine ⟨fun harena => ?_, fun cell hcell => ?_, fun found hfound => ?_⟩
  · rw [hpointers]
    refine h.nodup ?_
    rw [pointers_begun]
    exact harena.append (List.nodup_singleton _) (by simpa using hfresh)
  · rcases List.mem_cons.1 hcell with rfl | hcell
    · exact ⟨hchain, hpointers ▸ hplaces⟩
    · obtain ⟨hchain, hchildren⟩ := h.complete cell hcell
      exact ⟨hchain, hpointers ▸ hchildren⟩
  · refine ⟨pointer, List.mem_singleton_self _, ?_⟩
    rcases List.mem_cons.1 hfound with rfl | hfound
    · exact Relation.ReflTransGen.refl
    · obtain ⟨goal, hgoal, hleads⟩ := h.reached found hfound
      exact Relation.ReflTransGen.head hgoal hleads

/-- **What building does.**  Nodes that were there stay as they are, new ones are complete, and the node
at the pointer has the place that is given for it. -/
lemma grown_build {place : ℕ} {after : Arena}
    (h : build schema options document steps arena pointer = .ok (place, after)) :
    ∃ new, after = arena ++ new ∧ Grown schema options document arena [pointer] new
      ∧ after.pointers[place]? = some pointer := by
  induction steps generalizing arena pointer place after with
  | zero => simp [build] at h
  | succ steps ih =>
    rw [build] at h
    split at h
    · rename_i hmem
      obtain ⟨rfl, rfl⟩ := Prod.mk.inj (Except.ok.inj h)
      refine ⟨[], (List.append_nil _).symm, grown_nil _ _, ?_⟩
      rw [List.getElem?_eq_getElem (List.idxOf_lt_length_of_mem hmem), List.getElem_idxOf]
    · rename_i hfresh
      obtain ⟨chain, hchain, h⟩ := bind_eq_ok.1 h
      obtain ⟨⟨places, grown⟩, hchildren, h⟩ := bind_eq_ok.1 h
      obtain ⟨rfl, rfl⟩ := Prod.mk.inj (Except.ok.inj h)
      obtain ⟨new, rfl, hnew, hplaces⟩ := grown_buildAll (fun _ _ _ _ => ih) hchildren
      have hafter : (arena ++ [Cell.begun pointer] ++ new).set arena.length ⟨pointer, chain, places⟩
          = arena ++ ⟨pointer, chain, places⟩ :: new := by
        simp
      rw [hafter]
      exact ⟨_, rfl, hnew.completed hfresh (mapError_eq_ok.1 hchain) hplaces, by simp [pointers]⟩

/-! ## Building ends -/

/-- The transforms of the node at a pointer, with the pointer. -/
def entryAt (schema : Fragment) (options : Options) (document : Json) (pointer : Pointer) :
    Except CompileError (Pointer × Chain) := do
  return (pointer, ← Plan.chainAt schema options document pointer)

/-- Building goes the way of a walk: it adds nodes at the pointers that the walk has found, in their order,
or stops at the first of them whose transforms are refused. -/
def Follows {β : Type} (schema : Fragment) (options : Options) (document : Json) (arena : Arena)
    (found : List Pointer) (result : Except Stop (β × Arena)) : Prop :=
  match found.mapM (entryAt schema options document) with
  | .error error => result = .error (.refused error)
  | .ok _ => ∃ b after, result = .ok (b, after) ∧ after.pointers = arena.pointers ++ found

lemma follows_ok {β : Type} (b : β) (arena : Arena) :
    Follows schema options document arena [] (.ok (b, arena)) :=
  ⟨b, arena, rfl, (List.append_nil _).symm⟩

/-- One building after another goes the way of one walk after another. -/
lemma Follows.bind {β γ : Type} {found others : List Pointer} {result : Except Stop (β × Arena)}
    {next : β × Arena → Except Stop (γ × Arena)}
    (h : Follows schema options document arena found result)
    (hnext : ∀ b after, result = .ok (b, after) → after.pointers = arena.pointers ++ found →
      Follows schema options document after others (next (b, after))) :
    Follows schema options document arena (found ++ others) (result >>= next) := by
  unfold Follows at h ⊢
  rw [List.mapM_append]
  cases hfound : found.mapM (entryAt schema options document) with
  | error error =>
    simp only [hfound] at h
    rw [h]
    rfl
  | ok entries =>
    simp only [hfound] at h
    obtain ⟨b, after, rfl, hafter⟩ := h
    have hrest := hnext b after rfl hafter
    unfold Follows at hrest
    cases hothers : others.mapM (entryAt schema options document) with
    | error error =>
      simp only [hothers] at hrest
      exact hrest
    | ok more =>
      simp only [hothers] at hrest
      obtain ⟨c, last, hlast, hpointers⟩ := hrest
      exact ⟨c, last, hlast, by rw [hpointers, hafter, List.append_assoc]⟩

/-- A node is met before those that it leads to. -/
lemma Follows.node {found : List Pointer} {result : Except Stop (List ℕ × Arena)}
    (h : Follows schema options document (arena ++ [Cell.begun pointer]) found result) :
    Follows schema options document arena (pointer :: found) (do
      let chain ← (Plan.chainAt schema options document pointer).mapError .refused
      let (places, arena') ← result
      return (arena.length, arena'.set arena.length ⟨pointer, chain, places⟩)) := by
  unfold Follows at h ⊢
  rw [List.mapM_cons, entryAt]
  cases Plan.chainAt schema options document pointer with
  | error error => rfl
  | ok chain =>
    cases hfound : found.mapM (entryAt schema options document) with
    | error error =>
      simp only [hfound] at h
      rw [h]
      rfl
    | ok entries =>
      simp only [hfound] at h
      obtain ⟨places, after, rfl, hafter⟩ := h
      refine ⟨_, _, rfl, ?_⟩
      have hset : pointers (after.set arena.length ⟨pointer, chain, places⟩)
          = after.pointers.set arena.length pointer := List.map_set
      rw [hset, hafter]
      simp [pointers, Cell.begun]

/-- What is unseen among the nodes that a document can have is what the arena has no node for. -/
def Unbuilt (document : Json) (built unseen : List Pointer) : Prop :=
  ∀ pointer ∈ document.reachable, pointer ∈ unseen ↔ pointer ∉ built

/-- A walk on from some nodes, where others are unseen, and building from any arena with these nodes go the
same way. -/
def Accords {β : Type} (schema : Fragment) (options : Options) (document : Json)
    (built unseen : List Pointer) (walked : List Pointer × List Pointer)
    (result : Arena → Except Stop (β × Arena)) : Prop :=
  ∃ found, walked.1 = built ++ found ∧ walked.2.length ≤ unseen.length
    ∧ Unbuilt document walked.1 walked.2
    ∧ ∀ arena, pointers arena = built → Follows schema options document arena found (result arena)

variable {built unseen goals : List Pointer} {depth : ℕ}

lemma accords_known {β : Type} {value : Arena → β} (hunbuilt : Unbuilt document built unseen) :
    Accords schema options document built unseen (built, unseen) fun arena => .ok (value arena, arena) :=
  ⟨[], (List.append_nil _).symm, le_rfl, hunbuilt, fun arena _ => follows_ok (value arena) arena⟩

/-- If building each of some nodes goes the way of a walk, so does building them one after another. -/
lemma accords_buildAll {builder : Builder}
    (hbuilder : ∀ goal ∈ goals, ∀ built unseen, unseen.length ≤ depth → Unbuilt document built unseen →
      Accords schema options document built unseen
        (Graph.visit (Outline.edges document) depth (built, unseen) goal) (builder · goal))
    (hdepth : unseen.length ≤ depth) (hunbuilt : Unbuilt document built unseen) :
    Accords schema options document built unseen
      (goals.foldl (Graph.visit (Outline.edges document) depth) (built, unseen))
      (buildAll builder · goals) := by
  induction goals generalizing built unseen with
  | nil => exact accords_known hunbuilt
  | cons goal goals ih =>
    obtain ⟨found, hfound, hfewer, hunbuilt', hfollows⟩ :=
      hbuilder goal List.mem_cons_self built unseen hdepth hunbuilt
    obtain ⟨others, hothers, hfewer', hunbuilt'', hfollows'⟩ := ih
      (fun goal hgoal => hbuilder goal (List.mem_cons_of_mem _ hgoal)) (hfewer.trans hdepth) hunbuilt'
    refine ⟨found ++ others, ?_, hfewer'.trans hfewer, hunbuilt'', fun arena harena => ?_⟩
    · rw [← List.append_assoc, ← hfound]
      exact hothers
    · refine (hfollows arena harena).bind fun place after _ hafter => ?_
      rw [← List.append_nil others]
      refine (hfollows' after (by rw [hafter, harena, hfound])).bind fun places last _ _ => ?_
      exact follows_ok (place :: places) last

/-- A node that the arena has is not built again. -/
lemma accords_built {steps : ℕ} (hpointer : pointer ∈ built) (hunbuilt : Unbuilt document built unseen) :
    Accords schema options document built unseen (built, unseen)
      (build schema options document (steps + 1) · pointer) := by
  refine ⟨[], (List.append_nil _).symm, le_rfl, hunbuilt, fun arena harena => ?_⟩
  beta_reduce
  rw [build, harena, if_pos hpointer]
  exact follows_ok _ arena

lemma Unbuilt.mem_built (h : Unbuilt document built unseen) (hpointer : pointer ∈ document.reachable)
    (hseen : pointer ∉ unseen) : pointer ∈ built :=
  not_not.1 (mt (h pointer hpointer).2 hseen)

/-- A node that becomes one of the arena is unseen no more. -/
lemma Unbuilt.begin (h : Unbuilt document built unseen) (pointer : Pointer) :
    Unbuilt document (built ++ [pointer]) (Graph.without pointer unseen) := by
  intro other hother
  simp [Graph.without, h other hother, and_comm]

/-- **Building goes the way of a walk.**  With as many steps as there are nodes to be seen, and one more,
the budget lasts: before a node leads on to others it has become a node that is not built again. -/
lemma accords_build {steps : ℕ} (hsteps : depth ≤ steps) (hpointer : pointer ∈ document.reachable)
    (hdepth : unseen.length ≤ depth) (hunbuilt : Unbuilt document built unseen) :
    Accords schema options document built unseen
      (Graph.visit (Outline.edges document) depth (built, unseen) pointer)
      (build schema options document (steps + 1) · pointer) := by
  have hbuilt := hunbuilt.mem_built hpointer
  induction depth generalizing steps pointer built unseen with
  | zero =>
    have hnil : unseen = [] := List.eq_nil_of_length_eq_zero (Nat.le_zero.1 hdepth)
    exact accords_built (hbuilt (hnil ▸ List.not_mem_nil)) hunbuilt
  | succ depth ih =>
    by_cases hunseen : pointer ∈ unseen
    · obtain ⟨steps, rfl⟩ := Nat.exists_eq_add_one_of_ne_zero (Nat.ne_zero_of_lt hsteps)
      have hfewer := Graph.length_without_lt hunseen
      have hfresh : pointer ∉ built := (hunbuilt pointer hpointer).1 hunseen
      have hchildren : ∀ goal ∈ Outline.edges document pointer, ∀ built unseen, unseen.length ≤ depth →
          Unbuilt document built unseen → Accords schema options document built unseen
            (Graph.visit (Outline.edges document) depth (built, unseen) goal)
            (build schema options document (steps + 1) · goal) := fun goal hgoal _ _ hdepth hunbuilt =>
        have hgoal := Outline.edges_subset_reachable hpointer hgoal
        ih (Nat.le_of_succ_le_succ hsteps) hgoal hdepth hunbuilt (hunbuilt.mem_built hgoal)
      obtain ⟨found, hfound, hfewer', hunbuilt', hfollows⟩ := accords_buildAll hchildren
        (Nat.le_of_lt_succ (hfewer.trans_le hdepth)) (hunbuilt.begin pointer)
      rw [Graph.visit, if_pos hunseen]
      refine ⟨pointer :: found, by simpa using hfound, hfewer'.trans hfewer.le, hunbuilt',
        fun arena harena => ?_⟩
      beta_reduce
      rw [build, harena, if_neg hfresh]
      exact (hfollows _ (by rw [pointers_begun, harena])).node
    · rw [Graph.visit, if_neg hunseen]
      exact accords_built (hbuilt hunseen) hunbuilt

/-! ## The arena of a document -/

/-- The transforms of the nodes, with their pointers. -/
def entries (arena : Arena) : List (Pointer × Chain) :=
  arena.map fun cell => (cell.pointer, cell.chain)

/-- The arena of nodes that have these pointers and transforms. -/
def ofEntries (document : Json) (entries : List (Pointer × Chain)) : Arena :=
  entries.map fun entry =>
    ⟨entry.1, entry.2, (Outline.edges document entry.1).map (entries.map Prod.fst).idxOf⟩

/-- With enough steps, building goes the way of the walk through the nodes of the document. -/
lemma follows_nodes {steps : ℕ} (hsteps : document.reachable.length < steps) :
    Follows schema options document [] (Outline.nodes document)
      (build schema options document steps [] "") := by
  obtain ⟨steps, rfl⟩ := Nat.exists_eq_add_one_of_ne_zero (Nat.ne_zero_of_lt hsteps)
  have hroot : Accords schema options document [] document.reachable
      (Graph.visit (Outline.edges document) document.reachable.length ([], document.reachable) "")
      (build schema options document (steps + 1) · "") :=
    accords_build (Nat.le_of_lt_succ hsteps) Json.root_mem_reachable le_rfl fun _ h => by simpa using h
  obtain ⟨found, hfound, -, -, hfollows⟩ := hroot
  have hnodes : Outline.nodes document = found := hfound
  exact hnodes ▸ hfollows [] rfl

lemma mapM_entryAt (h : ∀ cell ∈ arena, Complete schema options document arena cell) :
    arena.pointers.mapM (entryAt schema options document) = .ok arena.entries := by
  rw [pointers, List.mapM_map]
  refine mapM_eq_pure_map fun cell hcell => ?_
  rw [Function.comp_apply, entryAt, (h cell hcell).chain]
  rfl

/-- Of distinct pointers each stands at one place. -/
lemma eq_map_idxOf {pointers goals : List Pointer} {places : List ℕ} (hnodup : pointers.Nodup)
    (h : places.map (pointers[·]?) = goals.map some) : places = goals.map pointers.idxOf := by
  induction places generalizing goals with
  | nil =>
    obtain rfl : goals = [] := by simpa using h.symm
    rfl
  | cons place places ih =>
    cases goals with
    | nil => simp at h
    | cons goal goals =>
      rw [List.map_cons, List.map_cons, List.cons.injEq] at h
      obtain ⟨hplace, hgoal⟩ := List.getElem?_eq_some_iff.1 h.1
      rw [List.map_cons, ← ih h.2, ← hgoal, hnodup.idxOf_getElem place hplace]

/-- Complete nodes, no two the same, are told by their pointers and transforms. -/
lemma eq_ofEntries (hnodup : arena.pointers.Nodup)
    (h : ∀ cell ∈ arena, Complete schema options document arena cell) :
    arena = ofEntries document arena.entries := by
  have hpointers : arena.entries.map Prod.fst = arena.pointers := List.map_map
  rw [ofEntries, hpointers, entries, List.map_map]
  refine (List.map_id arena).symm.trans (List.map_congr_left fun cell hcell => ?_)
  have hchildren := eq_map_idxOf hnodup (h cell hcell).children
  rw [id, Function.comp_apply, ← hchildren]

/-- Built from nothing, the arena is complete, and its nodes are those that the root leads to. -/
lemma grown_root {place : ℕ} (h : build schema options document steps [] "" = .ok (place, arena)) :
    place = 0 ∧ arena.pointers.Nodup ∧ (∀ cell ∈ arena, Complete schema options document arena cell)
      ∧ "" ∈ arena.pointers ∧ ∀ found ∈ arena.pointers, Graph.Leads (Outline.edges document) "" found := by
  obtain ⟨new, rfl, hgrown, hplace⟩ := grown_build h
  refine ⟨?_, hgrown.nodup List.nodup_nil, hgrown.complete, List.mem_of_getElem? hplace,
    fun found hfound => ?_⟩
  · cases steps with
    | zero => simp [build] at h
    | succ steps =>
      -- the first node takes the first place
      obtain ⟨_, -, h⟩ := bind_eq_ok.1 h
      obtain ⟨_, -, h⟩ := bind_eq_ok.1 h
      exact (Prod.mk.inj (Except.ok.inj h)).1.symm
  · obtain ⟨goal, hgoal, hleads⟩ := hgrown.reached found hfound
    exact List.mem_singleton.1 hgoal ▸ hleads

/-- **What building comes to**, with enough steps. -/
lemma build_eq {steps : ℕ} (hsteps : document.reachable.length < steps) :
    build schema options document steps [] ""
      = (do
        let entries ← (Plan.chains schema options document).mapError .refused
        return (0, ofEntries document entries)) := by
  have hfollows : Follows schema options document [] (Outline.nodes document) _ := follows_nodes hsteps
  unfold Follows at hfollows
  have hchains : Plan.chains schema options document
      = (Outline.nodes document).mapM (entryAt schema options document) := rfl
  rw [hchains]
  cases hentries : (Outline.nodes document).mapM (entryAt schema options document) with
  | error error =>
    simp only [hentries] at hfollows
    exact hfollows
  | ok entries =>
    simp only [hentries] at hfollows
    obtain ⟨place, arena, hbuild, hpointers⟩ := hfollows
    obtain ⟨rfl, hnodup, hcomplete, -⟩ := grown_root hbuild
    have hsame : arena.pointers.mapM (entryAt schema options document) = .ok entries :=
      hpointers ▸ hentries
    rw [mapM_entryAt hcomplete] at hsame
    rw [hbuild, eq_ofEntries hnodup hcomplete, Except.ok.inj hsame]
    rfl

/-- An arena that is in order for a document: no node stands in it twice, the nodes that it leads to are in
it, and its nodes are the root, what that leads to, and no others. -/
structure Orderly (document : Json) (arena : Arena) : Prop where
  closed : arena.Closed
  nodup : arena.pointers.Nodup
  resolves : ∀ pointer ∈ arena.pointers, (document.resolve? pointer).isSome
  least : IsLeast {nodes | Outline.Hereditary document nodes} {pointer | pointer ∈ arena.pointers}

lemma closed_of_complete (h : ∀ cell ∈ arena, Complete schema options document arena cell) :
    arena.Closed := by
  intro cell hcell place hplace
  obtain ⟨child, -, hchild⟩ := (h cell hcell).exists_edge hplace
  rw [← length_pointers]
  exact (List.getElem?_eq_some_iff.1 hchild).1

lemma edges_subset_pointers (h : ∀ cell ∈ arena, Complete schema options document arena cell)
    (hpointer : pointer ∈ arena.pointers) : Outline.edges document pointer ⊆ arena.pointers := by
  intro child hchild
  obtain ⟨cell, hcell, rfl⟩ := List.mem_map.1 hpointer
  obtain ⟨place, -, hplace⟩ := (h cell hcell).exists_place hchild
  exact List.mem_of_getElem? hplace

/-- **What is built is in order.** -/
lemma orderly_of_build {place : ℕ}
    (h : build schema options document steps [] "" = .ok (place, arena)) : arena.Orderly document := by
  obtain ⟨-, hnodup, hcomplete, hroot, hreached⟩ := grown_root h
  refine ⟨closed_of_complete hcomplete, hnodup,
    fun pointer hpointer =>
      Outline.isSome_resolve?_of_mem_nodes (Outline.mem_nodes_iff.2 (hreached pointer hpointer)),
    ⟨hroot, fun pointer hpointer keywords child hvalue hvisits => ?_⟩,
    fun nodes hnodes pointer hpointer => hnodes.mem_of_leads (hreached pointer hpointer)⟩
  exact edges_subset_pointers hcomplete hpointer (Outline.mem_edges_iff.2 ⟨keywords, hvalue, hvisits⟩)

end Arena

/-! ## The arena of a plan -/

namespace Plan

variable {schema : Fragment} {options : Options} {plan : Plan} {pointer : Pointer}
  {matchers : MatcherBuilder}

/-- The nodes of a plan, where a node is known by its place among them. -/
def arena (plan : Plan) : Arena :=
  plan.nodes.map fun node =>
    ⟨node.outline.pointer, node.chain, node.outline.children.map plan.places.idxOf⟩

/-- Lists that are related element by element are the same where related elements are. -/
lemma map_eq_map_of_forall₂ {α β γ : Type} {R : α → β → Prop} {f : α → γ} {g : β → γ} {as : List α}
    {bs : List β} (h : List.Forall₂ R as bs) (hR : ∀ a b, R a b → f a = g b) : as.map f = bs.map g := by
  have hsame : List.Forall₂ (fun a b => f a = g b) as bs := h.imp hR
  rwa [← List.forall₂_map_right_iff, ← List.forall₂_map_left_iff, List.forall₂_eq_eq_eq] at hsame

/-- **The arena of a compiled plan** is the one that is built. -/
lemma build_arena (h : compile matchers schema options = .ok plan) {steps : ℕ}
    (hsteps : schema.json.reachable.length < steps) :
    Arena.build schema options schema.json steps [] "" = .ok (0, plan.arena) := by
  obtain ⟨entries, hentries, h⟩ := bind_eq_ok.1 h
  obtain ⟨nodes, hnodes, h⟩ := bind_eq_ok.1 h
  obtain rfl := Except.ok.inj h
  have hparts := mapM_forall₂ hnodes
  have hplaces : entries.map Prod.fst = nodes.map fun node => node.outline.pointer :=
    map_eq_map_of_forall₂ hparts fun entry node hnode => by
      rw [(assembleNode_ok hnode).1, pointer_read]
  have hcells : Arena.ofEntries schema.json entries = arena ⟨schema.json, nodes⟩ :=
    map_eq_map_of_forall₂ hparts fun entry node hnode => by
      obtain ⟨houtline, hchain, -⟩ := assembleNode_ok hnode
      rw [hplaces, houtline, hchain, pointer_read]
      rfl
  rw [Arena.build_eq hsteps, hentries, ← hcells]
  rfl

/-! ## No node is missed -/

lemma node?_of_mem_places (h : pointer ∈ plan.places) : plan.node? pointer = some (plan.node pointer) := by
  obtain ⟨node, hnode, rfl⟩ := List.mem_map.1 h
  exact node?_of_mem hnode

/-- A sweep that stops at a node that the plan does not have. -/
def strictSweep (plan : Plan) : ℕ → Json × List Pointer → Pointer → Option (Json × List Pointer)
  | 0, _, _ => none
  | steps + 1, (value, seen), pointer =>
    if pointer ∈ seen then some (value, seen)
    else do
      let node ← plan.node? pointer
      let (value, seen) ← node.outline.conjuncts.foldlM (strictSweep plan steps) (value, seen ++ [pointer])
      let value ← sweepInside (fun child value => (strictSweep plan steps (value, []) child).map Prod.fst)
        node value
      return (value, seen)

lemma sweepInside_congr {sweepChild other : Pointer → Json → Option Json} {node : PlanNode}
    (h : ∀ child ∈ node.insideNodes, ∀ value, sweepChild child value = other child value) (value : Json) :
    sweepInside sweepChild node value = sweepInside other node value := by
  cases value with
  | object members =>
    refine congrArg (Option.map Json.object) (foldlM_congr (fun members rule hrule => ?_) _)
    refine mapM_congr fun member _ => ?_
    dsimp only
    rw [h _ (mem_insideNodes_of_rule hrule)]
  | array items =>
    refine congrArg (Option.map Json.array) (mapM_congr fun entry _ => ?_)
    dsimp only
    cases hnode : node.outline.itemNode? entry.2 with
    | none => rfl
    | some child => exact h child (mem_insideNodes_of_item hnode) entry.1
  | _ => rfl

/-- **A sweep never comes to a node that the plan does not have.** -/
lemma strictSweep_eq (hw : plan.Whole) (steps : ℕ) : ∀ pointer ∈ plan.places, ∀ state,
    plan.strictSweep steps state pointer = plan.sweep steps state pointer := by
  induction steps with
  | zero => exact fun _ _ _ => rfl
  | succ steps ih =>
    rintro pointer hpointer ⟨value, seen⟩
    have hconjuncts : ∀ state, (plan.node pointer).outline.conjuncts.foldlM (plan.strictSweep steps) state
        = (plan.node pointer).outline.conjuncts.foldlM (plan.sweep steps) state :=
      foldlM_congr fun state child hchild => ih child (hw.conjunct pointer hpointer child hchild) state
    have hinside : ∀ value,
        sweepInside (fun child value => (plan.strictSweep steps (value, []) child).map Prod.fst)
            (plan.node pointer) value
          = sweepInside (fun child value => (plan.sweep steps (value, []) child).map Prod.fst)
            (plan.node pointer) value :=
      sweepInside_congr fun child hchild value =>
        congrArg (Option.map Prod.fst) (ih child (hw.inside pointer hpointer child hchild) (value, []))
    simp only [strictSweep, sweep, node?_of_mem_places hpointer, Option.bind_eq_bind, Option.bind_some,
      hconjuncts, hinside]

/-- The nodes that runs and sweeps by a plan come to, and those that they ask about, are all in the plan.  A
run comes to the nodes of its events, and asks whether their branches are active. -/
structure Unfailing (plan : Plan) : Prop where
  run : ∀ steps value, ∀ event ∈ (plan.traceRun steps value).events,
    event.node ∈ plan.places ∧ (plan.node event.node).outline.branches ⊆ plan.places
  sweep : ∀ value steps, plan.sweepBound value [] ≤ steps →
    ∃ seen, plan.strictSweep steps (value, []) "" = some (plan.prune value, seen)

/-- A compiled plan leads to nodes of its own only. -/
lemma mem_places_of_child (h : compile matchers schema options = .ok plan) (hpointer : pointer ∈ plan.places)
    {child : Pointer} (hchild : child ∈ (plan.node pointer).outline.children) : child ∈ plan.places :=
  (mem_places_iff h).2 (mem_nodes_of_child h ((mem_places_iff h).1 hpointer) hchild)

/-- What a run comes to from a node of the plan is a node of the plan. -/
lemma keeps_places (h : compile matchers schema options = .ok plan) :
    plan.Keeps fun pointer _ => pointer ∈ plan.places where
  member := fun hpointer hchild _ => (whole_of_compile h).member hpointer hchild
  item := fun hpointer hchild _ => (whole_of_compile h).item hpointer hchild
  value := by
    intro pointer at_ child hpointer hchild
    have hnode := (mem_places_iff h).1 hpointer
    cases hchild with
    | conjunct hchild => exact (whole_of_compile h).conjunct pointer hpointer child hchild
    | branch hbranch =>
      exact mem_places_of_child h hpointer
        (Outline.branches_subset_children _ (listed_of_mem_branches h hnode hbranch))
    | selected hselected =>
      obtain ⟨matcher, -, hselected⟩ := Option.bind_eq_some_iff.1 hselected
      refine mem_places_of_child h hpointer (Outline.followers_subset_children _ ?_)
      split at hselected <;> simp [hselected]

/-- **No lookup fails.** -/
lemma unfailing_of_compile (h : compile matchers schema options = .ok plan) : plan.Unfailing where
  run := by
    intro steps value event hevent
    have hnode := plan.every_visit steps value (keeps_places h) (whole_of_compile h).root event hevent
    exact ⟨hnode, fun branch hbranch =>
      mem_places_of_child h hnode (Outline.branches_subset_children _ hbranch)⟩
  sweep := by
    intro value steps hsteps
    have hw := whole_of_compile h
    rw [strictSweep_eq hw steps "" hw.root]
    exact sweep_eq_prune hw hsteps

end Plan

namespace Arena

/-- **Building ends, with all that the root leads to.**  It ends for every document, however its references
go, and the arena is then in order.  The nodes of a compiled plan are those of the arena, so no run and no
sweep asks for a node that is not there. -/
theorem build_ends_in_order (schema : Fragment) (options : Options) (document : Json) :
    (∃ result, result ≠ .error .exhausted
        ∧ ∀ steps, document.reachable.length < steps → build schema options document steps [] "" = result)
      ∧ (∀ steps place arena, build schema options document steps [] "" = .ok (place, arena) →
          place = 0 ∧ arena.Orderly document)
      ∧ ∀ matchers plan, Plan.compile matchers schema options = .ok plan → schema.json = document →
          (∀ steps, document.reachable.length < steps →
              build schema options document steps [] "" = .ok (0, plan.arena))
            ∧ plan.Unfailing := by
  refine ⟨⟨_, ?_, fun _ hsteps => build_eq hsteps⟩,
    fun _ _ _ h => ⟨(grown_root h).1, orderly_of_build h⟩, ?_⟩
  · cases Plan.chains schema options document <;> simp [Except.mapError, bind, Except.bind, pure, Except.pure]
  · rintro matchers plan hplan rfl
    exact ⟨fun _ hsteps => Plan.build_arena hplan hsteps, Plan.unfailing_of_compile hplan⟩

/-- Folders in folders, with a name that refers to itself. -/
def folderSchema : Fragment where
  keywords :=
    [("properties", .object
      [("inner", .object [("$ref", .string "#")]),
        ("name", .object [("anyOf", .array [.bool true, .object [("$ref", .string "#/properties/name")]])])])]

/-- Though the references go in two circles, building ends; a schema that is no object has a node, too. -/
theorem folderSchema_builds : ∃ plan, Plan.compile (Matcher.build {} [] {}) folderSchema {} = .ok plan
    ∧ plan.arena.pointers = ["", "/properties/inner", "/properties/name", "/properties/name/anyOf/0",
        "/properties/name/anyOf/1"]
    ∧ plan.arena.map Cell.children = [[1, 2], [0], [3, 4], [], [2]]
    ∧ (∀ steps, folderSchema.json.reachable.length < steps →
        build folderSchema {} folderSchema.json steps [] "" = .ok (0, plan.arena))
    ∧ plan.arena.Orderly folderSchema.json ∧ plan.Unfailing := by
  have hcells : (Plan.compile (Matcher.build {} [] {}) folderSchema {}).toOption.any (fun plan =>
      plan.arena.pointers = ["", "/properties/inner", "/properties/name", "/properties/name/anyOf/0",
          "/properties/name/anyOf/1"]
        ∧ plan.arena.map Cell.children = [[1, 2], [0], [3, 4], [], [2]]) = true := by decide +kernel
  obtain ⟨-, horderly, hplans⟩ := build_ends_in_order folderSchema {} folderSchema.json
  cases hcompile : Plan.compile (Matcher.build {} [] {}) folderSchema {} with
  | error e => simp [hcompile, Except.toOption] at hcells
  | ok plan =>
    rw [hcompile] at hcells
    obtain ⟨hpointers, hchildren⟩ := of_decide_eq_true hcells
    obtain ⟨hbuild, hunfailing⟩ := hplans _ plan hcompile rfl
    exact ⟨plan, rfl, hpointers, hchildren, hbuild,
      (horderly _ 0 plan.arena (hbuild _ (Nat.lt_succ_self _))).2, hunfailing⟩

end Arena

end SchemaAlgebra
