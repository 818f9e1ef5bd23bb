/-!
# Finite graphs

A graph is given by the edges that leave each of its nodes.  Whatever its edges, only the nodes of a
given list are visited, so walks end although the graph may go in circles.

* `Graph.depthFirst` — the nodes that can be reached, each once and before those it leads to first.
* `Graph.reaching` — the nodes from which some marked node can be reached.
-/

namespace SchemaAlgebra

namespace Graph

universe u

variable {α : Type u} [DecidableEq α]

/-- The nodes other than `a`. -/
def without (a : α) (nodes : List α) : List α :=
  nodes.filter fun b => b ≠ a

theorem length_without_lt {a : α} {nodes : List α} (h : a ∈ nodes) :
    (without a nodes).length < nodes.length := by
  induction nodes with
  | nil => simp at h
  | cons b nodes ih =>
    by_cases hb : b = a
    · subst hb
      simpa [without] using Nat.lt_succ_of_le (List.length_filter_le (fun c => c ≠ b) nodes)
    · have hmem : a ∈ nodes := by simpa [Ne.symm hb] using h
      simpa [without, hb] using ih hmem

/-- Visits a node that is still unseen, and then what it leads to, depth first.  The state holds the
nodes visited so far and those still unseen; a way down passes at most `depth` nodes. -/
def visit (edges : α → List α) : Nat → List α × List α → α → List α × List α
  | 0, state, _ => state
  | depth + 1, (visited, unseen), a =>
    if a ∈ unseen then
      (edges a).foldl (visit edges depth) (visited ++ [a], without a unseen)
    else (visited, unseen)

/-- Visits the nodes on the stack, and what they lead to, depth first.  A node is visited if it is
among the `unseen`, which it then is no more, so no way down is longer than their number. -/
def depthFirst (edges : α → List α) (unseen stack : List α) : List α :=
  (stack.foldl (visit edges unseen.length) ([], unseen)).1

/-- The nodes not in `known` that an edge leads from into `known`. -/
def frontier (edges : α → List α) (nodes known : List α) : List α :=
  nodes.filter fun a => a ∉ known && (edges a).any fun b => b ∈ known

theorem length_unknown_lt {edges : α → List α} {nodes known : List α}
    (h : frontier edges nodes known ≠ []) :
    (nodes.filter fun a => a ∉ known ++ frontier edges nodes known).length
      < (nodes.filter fun a => a ∉ known).length := by
  obtain ⟨a, ha⟩ := List.exists_mem_of_ne_nil _ h
  have hnodes : a ∈ nodes := (List.mem_filter.1 ha).1
  have hknown : a ∉ known := by
    have := (List.mem_filter.1 ha).2
    simp only [Bool.and_eq_true, decide_eq_true_eq] at this
    exact this.1
  have hsub : (nodes.filter fun b => b ∉ known ++ frontier edges nodes known)
      = ((nodes.filter fun b => b ∉ known).filter fun b => b ∉ frontier edges nodes known) := by
    rw [List.filter_filter]
    refine List.filter_congr fun b _ => ?_
    simp [Bool.and_comm]
  rw [hsub]
  refine Nat.lt_of_le_of_ne (List.length_filter_le _ _) fun heq => ?_
  have := List.length_filter_eq_length_iff.1 heq a
    (List.mem_filter.2 ⟨hnodes, by simpa using hknown⟩)
  simp [ha] at this

/-- Adds to `known`, round by round, the nodes not in it that lead into it. -/
def grow (edges : α → List α) (nodes : List α) : Nat → List α → List α
  | 0, known => known
  | rounds + 1, known =>
    if frontier edges nodes known = [] then known
    else grow edges nodes rounds (known ++ frontier edges nodes known)

/-- Adds to `known` the nodes from which it can be reached.  Every round but the last adds a node. -/
def reaching (edges : α → List α) (nodes known : List α) : List α :=
  grow edges nodes nodes.length known

end Graph

end SchemaAlgebra
