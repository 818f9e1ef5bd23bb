import Mathlib.Data.List.Basic
import Mathlib.Logic.Relation
import SchemaAlgebra.Graph

/-!
# Walks through graphs

Depth first, the nodes that can be reached from the stack are visited, and no others.

* `Graph.Leads` — an edge leads from a node to another, in any number of steps.
* `Graph.mem_depthFirst_of_leads` — every node that can be reached is visited, if the given nodes are
  closed under the edges.  At the end the visited nodes are closed: a node is added before those that
  it leads to, but the visit of a node ends after theirs (`Graph.Grown`).
* `Graph.leads_of_mem_depthFirst` — every visited node can be reached.
* `Graph.mem_reaching_iff` — the nodes from which known ones can be reached.
* `Graph.exists_steps_lt` — a way that passes no node twice is shorter than the nodes are many.
-/

namespace SchemaAlgebra

namespace Graph

universe u

variable {α : Type u} {edges : α → List α}

/-- Edges lead from a node to another, in any number of steps. -/
def Leads (edges : α → List α) : α → α → Prop :=
  Relation.ReflTransGen fun a b => b ∈ edges a

/-- Nodes that are closed under the edges hold all that they lead to. -/
lemma mem_of_leads {nodes : List α} (hclosed : ∀ a ∈ nodes, edges a ⊆ nodes) {a b : α}
    (ha : a ∈ nodes) (h : Leads edges a b) : b ∈ nodes := by
  induction h with
  | refl => exact ha
  | tail _ hedge ih => exact hclosed _ ih hedge

/-! ## Everything that can be reached is visited -/

/-- What a part of a walk does to the visited and the unseen nodes, given the nodes `nodes`, when it is
to visit those of `goals`. -/
structure Grown (edges : α → List α) (nodes goals : List α) (before after : List α × List α) :
    Prop where
  /-- No node is forgotten. -/
  subset : before.1 ⊆ after.1
  /-- Every node is visited or unseen. -/
  covered : ∀ a ∈ nodes, a ∈ after.1 ∨ a ∈ after.2
  /-- Unseen nodes get fewer. -/
  fewer : after.2.length ≤ before.2.length
  /-- The goals are visited. -/
  reached : goals ⊆ after.1
  /-- So are the nodes that new ones lead to. -/
  closed : ∀ a ∈ after.1, a ∈ before.1 ∨ edges a ⊆ after.1

variable {nodes : List α}

lemma grown_refl {state : List α × List α} (h : ∀ a ∈ nodes, a ∈ state.1 ∨ a ∈ state.2) :
    Grown edges nodes [] state state :=
  ⟨fun _ h => h, h, Nat.le_refl _, List.nil_subset _, fun _ h => Or.inl h⟩

lemma Grown.trans {goals more : List α} {s t u : List α × List α} (hst : Grown edges nodes goals s t)
    (htu : Grown edges nodes more t u) : Grown edges nodes (goals ++ more) s u where
  subset := fun _ h => htu.subset (hst.subset h)
  covered := htu.covered
  fewer := Nat.le_trans htu.fewer hst.fewer
  reached := by
    intro a ha
    rcases List.mem_append.1 ha with h | h
    · exact htu.subset (hst.reached h)
    · exact htu.reached h
  closed := by
    intro a ha
    rcases htu.closed a ha with h | h
    · exact (hst.closed a h).imp id fun h b hb => htu.subset (h hb)
    · exact Or.inr h

variable [DecidableEq α]

/-- If each goal can be visited, given how many nodes are unseen, they can one after another. -/
lemma grown_foldl {depth : ℕ} (goals : List α)
    (h : ∀ a ∈ goals, ∀ state : List α × List α, state.2.length ≤ depth →
      (∀ b ∈ nodes, b ∈ state.1 ∨ b ∈ state.2) →
      Grown edges nodes [a] state (visit edges depth state a))
    (state : List α × List α) (hdepth : state.2.length ≤ depth)
    (hcovered : ∀ b ∈ nodes, b ∈ state.1 ∨ b ∈ state.2) :
    Grown edges nodes goals state (goals.foldl (visit edges depth) state) := by
  induction goals generalizing state with
  | nil => exact grown_refl hcovered
  | cons a goals ih =>
    have hfirst := h a List.mem_cons_self state hdepth hcovered
    exact hfirst.trans (ih (fun b hb => h b (List.mem_cons_of_mem _ hb)) _
      (Nat.le_trans hfirst.fewer hdepth) hfirst.covered)

lemma grown_visit (hclosed : ∀ a ∈ nodes, edges a ⊆ nodes) (depth : ℕ) {a : α} (ha : a ∈ nodes)
    (state : List α × List α) (hdepth : state.2.length ≤ depth)
    (hcovered : ∀ b ∈ nodes, b ∈ state.1 ∨ b ∈ state.2) :
    Grown edges nodes [a] state (visit edges depth state a) := by
  have hstay : a ∉ state.2 → Grown edges nodes [a] state state := fun hunseen =>
    { grown_refl hcovered with
      reached := by simpa using (hcovered a ha).resolve_right hunseen }
  -- by induction on the depth allowed: each node that is new takes one from what is unseen
  induction depth generalizing a state with
  | zero =>
    refine hstay ?_
    rw [List.eq_nil_of_length_eq_zero (Nat.le_zero.1 hdepth)]
    exact List.not_mem_nil
  | succ depth ih =>
    obtain ⟨visited, unseen⟩ := state
    by_cases hunseen : a ∈ unseen
    · have hfewer := length_without_lt hunseen
      have hcovered' : ∀ b ∈ nodes, b ∈ visited ++ [a] ∨ b ∈ without a unseen := by
        intro b hb
        by_cases hba : b = a
        · exact Or.inl (by simp [hba])
        · exact (hcovered b hb).imp (List.mem_append_left _) fun h => by simp [without, h, hba]
      have hrest := grown_foldl (edges a)
        (fun b hb state hdepth hcovered => ih (hclosed a ha hb) state hdepth hcovered fun hb' =>
          { grown_refl hcovered with
            reached := by simpa using (hcovered b (hclosed a ha hb)).resolve_right hb' })
        (visited ++ [a], without a unseen) (Nat.le_of_lt_succ (Nat.lt_of_lt_of_le hfewer hdepth))
        hcovered'
      simp only [visit, hunseen, if_true]
      refine ⟨fun b hb => hrest.subset (List.mem_append_left _ hb), hrest.covered,
        Nat.le_trans hrest.fewer (Nat.le_of_lt hfewer), ?_, ?_⟩
      · simpa using hrest.subset (List.mem_append_right _ (List.mem_singleton_self a))
      · intro b hb
        rcases hrest.closed b hb with h | h
        · rcases List.mem_append.1 h with h | h
          · exact Or.inl h
          · rw [List.mem_singleton.1 h]
            exact Or.inr hrest.reached
        · exact Or.inr h
    · simp only [visit, hunseen, if_false]
      exact hstay hunseen

/-- Every node that can be reached from the stack is visited. -/
lemma mem_depthFirst_of_leads {stack : List α} (hclosed : ∀ a ∈ nodes, edges a ⊆ nodes)
    (hstack : stack ⊆ nodes) {a b : α} (ha : a ∈ stack) (h : Leads edges a b) :
    b ∈ depthFirst edges nodes stack := by
  have hgrown : Grown edges nodes stack ([], nodes)
      (stack.foldl (visit edges nodes.length) ([], nodes)) :=
    grown_foldl stack (fun a ha => grown_visit hclosed _ (hstack ha)) ([], nodes) (Nat.le_refl _)
      fun b hb => Or.inr hb
  induction h with
  | refl => exact hgrown.reached ha
  | tail _ hedge ih => exact (hgrown.closed _ ih).resolve_left List.not_mem_nil hedge

/-! ## Nothing else is visited -/

lemma leads_of_mem_foldl {depth : ℕ} (goals : List α) (state : List α × List α)
    (h : ∀ a ∈ goals, ∀ state : List α × List α, ∀ b ∈ (visit edges depth state a).1,
      b ∈ state.1 ∨ Leads edges a b) {b : α} (hb : b ∈ (goals.foldl (visit edges depth) state).1) :
    b ∈ state.1 ∨ ∃ a ∈ goals, Leads edges a b := by
  induction goals generalizing state with
  | nil => exact Or.inl hb
  | cons a goals ih =>
    rcases ih _ (fun c hc => h c (List.mem_cons_of_mem _ hc)) hb with hb | ⟨c, hc, hleads⟩
    · exact (h a List.mem_cons_self state b hb).imp id fun hleads =>
        ⟨a, List.mem_cons_self, hleads⟩
    · exact Or.inr ⟨c, List.mem_cons_of_mem _ hc, hleads⟩

lemma leads_of_mem_visit (depth : ℕ) (a : α) (state : List α × List α) {b : α}
    (hb : b ∈ (visit edges depth state a).1) : b ∈ state.1 ∨ Leads edges a b := by
  induction depth generalizing a state b with
  | zero => exact Or.inl hb
  | succ depth ih =>
    obtain ⟨visited, unseen⟩ := state
    by_cases hunseen : a ∈ unseen
    · simp only [visit, hunseen, if_true] at hb
      rcases leads_of_mem_foldl (edges a) _ (fun c _ state b hb => ih c state hb) hb with
        h | ⟨c, hc, hleads⟩
      · rcases List.mem_append.1 h with h | h
        · exact Or.inl h
        · exact Or.inr (List.mem_singleton.1 h ▸ Relation.ReflTransGen.refl)
      · exact Or.inr (Relation.ReflTransGen.head hc hleads)
    · simp only [visit, hunseen, if_false] at hb
      exact Or.inl hb

/-- Every visited node can be reached from the stack. -/
lemma leads_of_mem_depthFirst {nodes stack : List α} {b : α}
    (hb : b ∈ depthFirst edges nodes stack) : ∃ a ∈ stack, Leads edges a b := by
  refine (leads_of_mem_foldl stack ([], nodes) (fun a _ state b hb => ?_) hb).resolve_left
    List.not_mem_nil
  exact leads_of_mem_visit _ a state hb

/-! ## What leads to known nodes -/

lemma mem_frontier {nodes known : List α} {a : α} :
    a ∈ frontier edges nodes known ↔ a ∈ nodes ∧ a ∉ known ∧ ∃ b ∈ edges a, b ∈ known := by
  simp [frontier]

lemma leads_of_mem_grow {nodes known : List α} {rounds : ℕ} {a : α}
    (h : a ∈ grow edges nodes rounds known) : ∃ b ∈ known, Leads edges a b := by
  induction rounds generalizing known with
  | zero => exact ⟨a, h, .refl⟩
  | succ rounds ih =>
    unfold grow at h
    split at h
    · exact ⟨a, h, .refl⟩
    · obtain ⟨b, hb, hleads⟩ := ih h
      rcases List.mem_append.1 hb with hb | hb
      · exact ⟨b, hb, hleads⟩
      · obtain ⟨-, -, c, hedge, hc⟩ := mem_frontier.1 hb
        exact ⟨c, hc, hleads.tail hedge⟩

lemma subset_grow (nodes known : List α) (rounds : ℕ) :
    known ⊆ grow edges nodes rounds known := by
  induction rounds generalizing known with
  | zero => exact List.Subset.refl _
  | succ rounds ih =>
    unfold grow
    split
    · exact List.Subset.refl _
    · exact fun a ha => ih _ (List.mem_append_left _ ha)

/-- There is a round for each node that is not known yet, so in the end none is left to add. -/
lemma frontier_grow {nodes known : List α} {rounds : ℕ}
    (h : (nodes.filter fun a => a ∉ known).length ≤ rounds) :
    frontier edges nodes (grow edges nodes rounds known) = [] := by
  induction rounds generalizing known with
  | zero =>
    have hnone := List.eq_nil_of_length_eq_zero (Nat.le_zero.1 h)
    refine List.eq_nil_iff_forall_not_mem.2 fun a ha => ?_
    obtain ⟨hnodes, hknown, -⟩ := mem_frontier.1 ha
    exact List.eq_nil_iff_forall_not_mem.1 hnone a
      (List.mem_filter.2 ⟨hnodes, decide_eq_true hknown⟩)
  | succ rounds ih =>
    unfold grow
    split
    · assumption
    · rename_i hmore
      exact ih (Nat.le_of_lt_succ (Nat.lt_of_lt_of_le (length_unknown_lt hmore) h))

/-- **What leads to known nodes**, among nodes that are closed under the edges. -/
lemma mem_reaching_iff {known : List α} (hclosed : ∀ a ∈ nodes, edges a ⊆ nodes) {a : α}
    (ha : a ∈ nodes) : a ∈ reaching edges nodes known ↔ ∃ b ∈ known, Leads edges a b := by
  refine ⟨leads_of_mem_grow, ?_⟩
  rintro ⟨b, hb, hleads⟩
  have hdone : frontier edges nodes (reaching edges nodes known) = [] :=
    frontier_grow (List.length_filter_le _ _)
  induction hleads using Relation.ReflTransGen.head_induction_on with
  | refl => exact subset_grow _ _ _ hb
  | @head a c hedge _ ih =>
    by_contra hmissing
    have hc := ih (hclosed a ha hedge)
    have hmem : a ∈ frontier edges nodes (reaching edges nodes known) :=
      mem_frontier.2 ⟨ha, hmissing, c, hedge, hc⟩
    rw [hdone] at hmem
    exact List.not_mem_nil hmem

/-! ## Short ways -/

section Steps

variable {β : Type u} {r : β → β → Prop}

/-- A relation leads from one thing to another in a number of steps. -/
inductive Steps (r : β → β → Prop) : ℕ → β → β → Prop
  | refl {a} : Steps r 0 a a
  | tail {n a b c} : Steps r n a b → r b c → Steps r (n + 1) a c

lemma Steps.head {n : ℕ} {a b c : β} (hfirst : r a b) (h : Steps r n b c) :
    Steps r (n + 1) a c := by
  induction h with
  | refl => exact .tail .refl hfirst
  | tail _ hlast ih => exact .tail (ih hfirst) hlast

lemma Steps.mono {s : β → β → Prop} {n : ℕ} {a b : β} (hrs : ∀ x y, r x y → s x y)
    (h : Steps r n a b) : Steps s n a b := by
  induction h with
  | refl => exact .refl
  | tail _ hlast ih => exact .tail ih (hrs _ _ hlast)

/-- After its last visit to where it starts, a way does not come back there. -/
lemma eq_or_exists_of_leads {a b : β} (h : Relation.ReflTransGen r a b) :
    b = a ∨ ∃ c, r a c ∧ c ≠ a ∧ Relation.ReflTransGen (fun x y => r x y ∧ y ≠ a) c b := by
  induction h with
  | refl => exact Or.inl rfl
  | @tail b c _ hlast ih =>
    by_cases hc : c = a
    · exact Or.inl hc
    · rcases ih with rfl | ⟨d, hd, hne, hrest⟩
      · exact Or.inr ⟨c, hlast, hc, Relation.ReflTransGen.refl⟩
      · exact Or.inr ⟨d, hd, hne, hrest.tail ⟨hlast, hc⟩⟩

/-- **Short ways.**  By induction on how many nodes there are: behind the start, one fewer is left. -/
lemma exists_steps_lt [DecidableEq β] {nodes : List β} {a b : β} (ha : a ∈ nodes)
    (hclosed : ∀ x y, r x y → y ∈ nodes) (h : Relation.ReflTransGen r a b) :
    ∃ n < nodes.length, Steps r n a b := by
  induction hlength : nodes.length using Nat.strongRecOn generalizing r nodes a with
  | ind length ih =>
    subst hlength
    rcases eq_or_exists_of_leads h with rfl | ⟨c, hc, hne, hrest⟩
    · exact ⟨0, List.length_pos_of_mem ha, .refl⟩
    · have hmem : ∀ y ∈ nodes, y ≠ a → y ∈ without a nodes := fun y hy hya => by
        simp [without, hy, hya]
      obtain ⟨n, hn, hsteps⟩ := ih _ (length_without_lt ha) (hmem c (hclosed _ _ hc) hne)
        (fun x y hxy => hmem y (hclosed x y hxy.1) hxy.2) hrest rfl
      exact ⟨n + 1, Nat.lt_of_le_of_lt hn (length_without_lt ha),
        .head hc (hsteps.mono fun x y hxy => hxy.1)⟩

end Steps

end Graph

end SchemaAlgebra
