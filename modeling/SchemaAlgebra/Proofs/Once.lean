import Mathlib.Data.List.Sigma
import Mathlib.Data.Set.Lattice
import Mathlib.Order.CompletePartialOrder
import SchemaAlgebra.Proofs.Trace

/-!
# How often a chain runs

Nodes that have been seen are not visited again, but what has been seen is forgotten where a run hands
on a member or item, and after each branch.  So a chain runs once a route, not once a position.

* `Traced.Fills` — a part of a run reaches no site (a route and a node) twice, and only those in its
  territory, which is described as seen from a route (`lane`).
* `Traced.Spends` — a part of a run uses up lanes.  The lanes of the nodes seen are those that are used
  up (`owned`), and the stages of a visit use up those of its node one after another.

**`Plan.runs_once_iff`** — no chain runs twice at a position just when no two routes come to one there.
-/

namespace SchemaAlgebra

/-- A place in a run: how it is come to, and the node. -/
abbrev ChainSite := Route × Pointer

/-- How a site lies as seen from a route: the next hop, should there be one, and the node. -/
abbrev Lane := Option Hop × Pointer

/-- How a site lies as seen from a route that it continues. -/
def lane (route : Route) (site : ChainSite) : Lane :=
  ((site.1.drop route.length).head?, site.2)

/-- The node seen on a lane: the one that takes the next hop, or else the node of the site. -/
def Lane.owner : Lane → Pointer
  | (some hop, _) => hop.node
  | (none, node) => node

/-- The lanes of some nodes. -/
def owned (nodes : List Pointer) : Set Lane :=
  {x | x.owner ∈ nodes}

lemma mem_owned {nodes : List Pointer} {x : Lane} : x ∈ owned nodes ↔ x.owner ∈ nodes :=
  Iff.rfl

/-- The lanes on which a hop is next. -/
def through (hop : Hop) : Set Lane :=
  {x | x.1 = some hop}

lemma lane_of_continues {route : Route} {hop : Hop} {site : ChainSite}
    (h : route ++ [hop] <+: site.1) : lane route site ∈ through hop := by
  obtain ⟨rest, hrest⟩ := h
  simp [lane, through, ← hrest]

lemma disjoint_through {hop hop' : Hop} (h : hop ≠ hop') :
    Disjoint (through hop) (through hop') := by
  rw [Set.disjoint_left]
  intro x hx hx'
  exact h (Option.some.inj (hx.symm.trans hx'))

namespace Traced

variable {α β γ : Type} {route : Route}

/-- Where chains run, in order. -/
def sites (t : Traced α) : List ChainSite :=
  (t.events.filter fun event => event.stage = .chain).map fun event => (event.route, event.node)

lemma sites_bind_of_ok {t : Traced α} {a : α} (h : t.pass.outcome = .ok a) (next : α → Traced β) :
    (t >>= next).sites = t.sites ++ (next a).sites := by
  simp [sites, events_bind_of_ok h]

lemma sites_bind_of_error {t : Traced α} {halt : Halt} (h : t.pass.outcome = .error halt)
    (next : α → Traced β) : (t >>= next).sites = t.sites := by
  simp [sites, events_bind_of_error h]

lemma outcome_bind_ok {t : Traced α} {next : α → Traced β} {b : β}
    (h : (t >>= next).pass.outcome = .ok b) :
    ∃ a, t.pass.outcome = .ok a ∧ (next a).pass.outcome = .ok b := by
  cases ha : t.pass.outcome with
  | error halt =>
    rw [pass_bind, Pass.outcome_bind_of_error ha] at h
    exact absurd h (by simp)
  | ok a =>
    rw [pass_bind, Pass.outcome_bind_of_ok ha] at h
    exact ⟨a, rfl, h⟩

/-! ## Territories -/

/-- The sites lie, as seen from the route, in the territory, and none is there twice. -/
def Fills (route : Route) (T : Set Lane) (t : Traced α) : Prop :=
  t.sites.Nodup ∧ ∀ site ∈ t.sites, route <+: site.1 ∧ lane route site ∈ T

lemma fills_of_sites_eq_nil {t : Traced α} {T : Set Lane} (h : t.sites = []) : Fills route T t := by
  simp [Fills, h]

lemma Fills.mono {t : Traced α} {S T : Set Lane} (h : Fills route S t) (hST : S ⊆ T) :
    Fills route T t :=
  ⟨h.1, fun site hsite => (h.2 site hsite).imp id fun hx => hST hx⟩

lemma Fills.bind {t : Traced α} {next : α → Traced β} {S T : Set Lane} (ht : Fills route S t)
    (hnext : ∀ a, t.pass.outcome = .ok a → Fills route T (next a)) (hdisjoint : Disjoint S T) :
    Fills route (S ∪ T) (t >>= next) := by
  cases h : t.pass.outcome with
  | error halt =>
    rw [Fills, sites_bind_of_error h]
    exact ht.mono Set.subset_union_left
  | ok a =>
    obtain ⟨hnodup, hnextT⟩ := hnext a h
    rw [Fills, sites_bind_of_ok h]
    refine ⟨List.Nodup.append ht.1 hnodup ?_, fun site hsite => ?_⟩
    · intro site hfirst hsecond
      exact Set.disjoint_left.1 hdisjoint (ht.2 site hfirst).2 (hnextT site hsecond).2
    · rcases List.mem_append.1 hsite with h | h
      · exact (ht.2 site h).imp id Or.inl
      · exact (hnextT site h).imp id Or.inr

lemma Fills.map {t : Traced α} {T : Set Lane} (ht : Fills route T t) (f : α → β) :
    Fills route T (f <$> t) := by
  rw [← bind_pure_comp, ← Set.union_empty T]
  exact ht.bind (fun a _ => fills_of_sites_eq_nil rfl) (Set.disjoint_empty T)

lemma Fills.settle {tried : Traced (Json × List Pointer)} {rest : List Issue → Traced Json}
    {S T : Set Lane} (htried : Fills route S tried) (hrest : ∀ issues, Fills route T (rest issues))
    (hdisjoint : Disjoint S T) : Fills route (S ∪ T) (tried.settle rest) := by
  rw [Traced.settle]
  split
  · exact (htried.map _).mono Set.subset_union_left
  · refine Fills.bind (t := hush tried) htried (fun result _ => ?_) hdisjoint
    split
    · exact fills_of_sites_eq_nil rfl
    · exact hrest _

/-- What lies beyond a hop lies on the lanes through it. -/
lemma Fills.hop {t : Traced α} {hop : Hop} {T : Set Lane} (ht : Fills (route ++ [hop]) T t) :
    Fills route (through hop) t :=
  ⟨ht.1, fun site hsite => ⟨(List.prefix_append _ _).trans (ht.2 site hsite).1,
    lane_of_continues (ht.2 site hsite).1⟩⟩

/-- The territories of some things together. -/
def joint (T : α → Set Lane) (items : List α) : Set Lane :=
  {x | ∃ a ∈ items, x ∈ T a}

lemma disjoint_joint {T : α → Set Lane} {a : α} {items : List α}
    (h : ∀ b ∈ items, Disjoint (T a) (T b)) : Disjoint (T a) (joint T items) := by
  rw [Set.disjoint_left]
  rintro x hx ⟨b, hb, hxb⟩
  exact Set.disjoint_left.1 (h b hb) hx hxb

lemma union_joint_subset {T : α → Set Lane} {a : α} {items : List α} :
    T a ∪ joint T items ⊆ joint T (a :: items) := by
  rintro x (hx | ⟨b, hb, hxb⟩)
  · exact ⟨a, List.mem_cons_self, hx⟩
  · exact ⟨b, List.mem_cons_of_mem _ hb, hxb⟩

lemma fills_mapM {f : α → Traced β} {T : α → Set Lane} {items : List α}
    (hpair : items.Pairwise fun a b => Disjoint (T a) (T b))
    (h : ∀ a ∈ items, Fills route (T a) (f a)) : Fills route (joint T items) (items.mapM f) := by
  induction items with
  | nil => exact fills_of_sites_eq_nil rfl
  | cons a items ih =>
    obtain ⟨hfirst, hrest⟩ := List.pairwise_cons.1 hpair
    rw [List.mapM_cons]
    refine ((h a List.mem_cons_self).bind (fun b _ => ?_) (disjoint_joint hfirst)).mono
      union_joint_subset
    have hmapped := ih hrest fun b hb => h b (List.mem_cons_of_mem _ hb)
    simpa only [bind_pure_comp] using hmapped.map (b :: ·)

lemma fills_foldlM {f : β → α → Traced β} {T : α → Set Lane} {items : List α}
    (hpair : items.Pairwise fun a b => Disjoint (T a) (T b))
    (h : ∀ b, ∀ a ∈ items, Fills route (T a) (f b a)) (b : β) :
    Fills route (joint T items) (items.foldlM f b) := by
  induction items generalizing b with
  | nil => exact fills_of_sites_eq_nil rfl
  | cons a items ih =>
    obtain ⟨hfirst, hrest⟩ := List.pairwise_cons.1 hpair
    rw [List.foldlM_cons]
    refine ((h b a List.mem_cons_self).bind (fun c _ => ?_) (disjoint_joint hfirst)).mono
      union_joint_subset
    exact ih hrest (fun c a ha => h c a (List.mem_cons_of_mem _ ha)) c

/-! ## Using up lanes -/

/-- **Using up.**  The lanes in `S` are used up before; the run uses up others, each for one chain at
most, and those in `S' a` are used up when it has led to `a`. -/
structure Spends (route : Route) (S : Set Lane) (S' : α → Set Lane) (t : Traced α) : Prop where
  fills : Fills route {x | x ∉ S ∧ ∀ a, t.pass.outcome = .ok a → x ∈ S' a} t
  grows : ∀ a, t.pass.outcome = .ok a → S ⊆ S' a

namespace Spends

variable {S : Set Lane} {S' : α → Set Lane} {S'' : β → Set Lane} {t : Traced α}

lemma pure {a : α} (h : S ⊆ S' a) : Spends route S S' (Pure.pure a) where
  fills := fills_of_sites_eq_nil rfl
  grows := by
    intro b hb
    obtain rfl : a = b := Except.ok.inj hb
    exact h

lemma of_fills {T : Set Lane} (h : Fills route T t) (hT : ∀ x ∈ T, x ∉ S ∧ ∀ a, x ∈ S' a)
    (hS : ∀ a, S ⊆ S' a) : Spends route S S' t where
  fills := h.mono fun x hx => ⟨(hT x hx).1, fun a _ => (hT x hx).2 a⟩
  grows := fun a _ => hS a

/-- A run that comes to no site uses up nothing. -/
lemma of_quiet (h : t.sites = []) : Spends route S (fun _ => S) t :=
  of_fills (fills_of_sites_eq_nil (T := ∅) h) (by simp) fun _ => subset_rfl

lemma bind {next : α → Traced β} (ht : Spends route S S' t)
    (hnext : ∀ a, t.pass.outcome = .ok a → Spends route (S' a) S'' (next a)) :
    Spends route S S'' (t >>= next) := by
  refine ⟨?_, fun b hb => ?_⟩
  · cases h : t.pass.outcome with
    | error halt =>
      have hfills : Fills route (_ ∪ ∅) (t >>= next) :=
        ht.fills.bind (fun a ha => absurd (h.symm.trans ha) (by simp)) (Set.disjoint_empty _)
      refine hfills.mono ?_
      rintro x (hx | hx)
      · refine ⟨hx.1, fun b hb => ?_⟩
        obtain ⟨a, ha, -⟩ := outcome_bind_ok hb
        exact absurd (h.symm.trans ha) (by simp)
      · exact absurd hx (Set.notMem_empty x)
    | ok a =>
      have hnext := hnext a h
      have hfills : Fills route (_ ∪ {x | x ∉ S' a
          ∧ ∀ b, (next a).pass.outcome = .ok b → x ∈ S'' b}) (t >>= next) := ht.fills.bind ?_ ?_
      · refine hfills.mono ?_
        rintro x (⟨hx, hx'⟩ | ⟨hx, hx'⟩)
        · refine ⟨hx, fun b hb => ?_⟩
          obtain ⟨a', ha', hb⟩ := outcome_bind_ok hb
          obtain rfl := Except.ok.inj (h.symm.trans ha')
          exact hnext.grows b hb (hx' a h)
        · refine ⟨fun hxS => hx (ht.grows a h hxS), fun b hb => ?_⟩
          obtain ⟨a', ha', hb⟩ := outcome_bind_ok hb
          obtain rfl := Except.ok.inj (h.symm.trans ha')
          exact hx' b hb
      · intro a' ha'
        obtain rfl := Except.ok.inj (h.symm.trans ha')
        exact hnext.fills
      · rw [Set.disjoint_left]
        rintro x ⟨-, hx⟩ ⟨hx', -⟩
        exact hx' (hx a h)
  · obtain ⟨a, ha, hb⟩ := outcome_bind_ok hb
    exact (ht.grows a ha).trans ((hnext a ha).grows b hb)

/-- **Framing.**  Lanes that count as used up, but are not, are left alone. -/
lemma frame (ht : Spends route S S' t) {X : Set Lane} (hX : X ⊆ S) :
    Spends route (S \ X) (fun a => S' a \ X) t where
  fills := by
    refine ht.fills.mono ?_
    rintro x ⟨hx, hx'⟩
    exact ⟨fun h => hx h.1, fun a ha => ⟨hx' a ha, fun h => hx (hX h)⟩⟩
  grows := fun a ha x hx => ⟨ht.grows a ha hx.1, hx.2⟩

lemma foldlM {f : β → α → Traced β} {items : List α} {S : β → Set Lane}
    (h : ∀ b, ∀ a ∈ items, Spends route (S b) S (f b a)) (b : β) :
    Spends route (S b) S (items.foldlM f b) := by
  induction items generalizing b with
  | nil => exact pure subset_rfl
  | cons a items ih =>
    rw [List.foldlM_cons]
    exact (h b a List.mem_cons_self).bind fun c _ =>
      ih (fun c a ha => h c a (List.mem_cons_of_mem _ ha)) c

end Spends

/-! ## The stages of a visit -/

variable {plan : Plan} {visit : TracedVisit} {at_ : Position} {value : Json} {seen : List Pointer}

/-- A visit spends the lanes of nodes that it then has seen. -/
def Tidy (visit : TracedVisit) : Prop :=
  ∀ route pointer at_ value seen,
    Spends route (owned seen) (fun r => owned r.2) (visit route pointer at_ value seen)

lemma pairwise_zipIdx (items : List α) {T : α × ℕ → Set Lane}
    (h : ∀ a b : α × ℕ, a.2 ≠ b.2 → Disjoint (T a) (T b)) :
    items.zipIdx.Pairwise fun a b => Disjoint (T a) (T b) :=
  (List.pairwise_map.1 (List.nodup_zipIdx_map_snd items)).imp fun hne => h _ _ hne

lemma fills_traceChild (hvisit : Tidy visit) (hop : Hop) (key : String) (child : Pointer)
    (value : Json) : Fills route (through hop) (Plan.traceChild visit route hop at_ key child value) :=
  (hvisit _ _ _ _ _).fills.hop.map _

lemma fills_traceMembers (hvisit : Tidy visit) (node : Pointer)
    (rule : ((String → Bool) × Pointer) × ℕ) (members : Entries Json) :
    Fills route {x | ∃ slot, x ∈ through (.member node rule.2 slot)}
      (Plan.traceMembers visit route node at_ rule members) := by
  refine (fills_mapM (T := fun entry => through (.member node rule.2 entry.2))
    (pairwise_zipIdx _ fun a b hne => disjoint_through (by simpa using hne)) ?_).mono ?_
  · rintro ⟨⟨key, value⟩, slot⟩ -
    by_cases hkey : rule.1.1 key = true
    · simp only [hkey, if_true, bind_pure_comp]
      exact (fills_traceChild hvisit _ _ _ _).map _
    · simp only [hkey, Bool.false_eq_true, if_false]
      exact fills_of_sites_eq_nil rfl
  · rintro x ⟨entry, -, hx⟩
    exact ⟨entry.2, hx⟩

/-- The lanes through hops by which a node hands on members and items. -/
def inner (node : Pointer) : Set Lane :=
  {x | (∃ rule slot, x ∈ through (.member node rule slot))
    ∨ ∃ index, x ∈ through (.item node index)}

/-- The lanes through the branches of a node. -/
def branchy (node : Pointer) : Set Lane :=
  {x | ∃ number, x ∈ through (.branch node number)}

lemma fills_traceInside (hvisit : Tidy visit) (node : PlanNode) :
    Fills route (inner node.outline.pointer) (Plan.traceInside visit route node at_ value) := by
  cases value with
  | object members =>
    refine Fills.map ((fills_foldlM (pairwise_zipIdx _ ?_)
      (fun members rule _ => fills_traceMembers hvisit _ rule members) members).mono ?_) _
    · intro a b hne
      rw [Set.disjoint_left]
      rintro x ⟨slot, hx⟩ ⟨slot', hx'⟩
      exact Set.disjoint_left.1 (disjoint_through (by simp [hne])) hx hx'
    · rintro x ⟨rule, -, slot, hx⟩
      exact Or.inl ⟨rule.2, slot, hx⟩
  | array items =>
    refine Fills.map ((fills_mapM (T := fun entry => through (.item node.outline.pointer entry.2))
      (pairwise_zipIdx _ fun a b hne => disjoint_through (by simpa using hne)) ?_).mono ?_) _
    · rintro ⟨item, index⟩ -
      cases hnode : node.outline.itemNode? index with
      | none =>
        simp only [hnode]
        exact fills_of_sites_eq_nil rfl
      | some child =>
        simp only [hnode]
        exact fills_traceChild hvisit _ _ _ _
    · rintro x ⟨entry, -, hx⟩
      exact Or.inr ⟨entry.2, hx⟩
  | _ => exact fills_of_sites_eq_nil rfl

lemma fills_traceBranches (hvisit : Tidy visit) (node : Pointer)
    {branches : List ((Matcher × Pointer) × ℕ)}
    (hpair : branches.Pairwise fun a b =>
      Disjoint (through (.branch node a.2)) (through (.branch node b.2)))
    (rejected : List Issue) :
    Fills route (joint (fun entry => through (.branch node entry.2)) branches)
      (plan.traceBranches visit route node at_ value seen branches rejected) := by
  induction branches generalizing rejected with
  | nil => exact fills_of_sites_eq_nil rfl
  | cons entry rest ih =>
    obtain ⟨⟨matcher, branch⟩, number⟩ := entry
    obtain ⟨hfirst, hrest⟩ := List.pairwise_cons.1 hpair
    have hsubset : through (.branch node number) ∪ joint (fun b => through (.branch node b.2)) rest
        ⊆ joint (fun b => through (.branch node b.2)) (((matcher, branch), number) :: rest) :=
      union_joint_subset (T := fun b => through (.branch node b.2)) (a := ((matcher, branch), number))
    rw [Plan.traceBranches_cons]
    split
    · exact (ih hrest rejected).mono (Set.subset_union_right.trans hsubset)
    split
    · exact fills_of_sites_eq_nil rfl
    · have htried := (hvisit (route ++ [.branch node number]) branch at_ value seen).fills.hop
      have hdisjoint := disjoint_joint (T := fun b => through (.branch node b.2))
        (a := ((matcher, branch), number)) hfirst
      exact (htried.settle (fun issues => ih hrest (rejected ++ issues)) hdisjoint).mono hsubset

/-- The lanes that a node spends only after the nodes that apply to its value: those of its branches,
and its own. -/
def late (node : Pointer) : Set Lane :=
  branchy node ∪ {(none, node)}

lemma owner_of_inner {node : Pointer} {x : Lane} (h : x ∈ inner node) : x.owner = node := by
  obtain ⟨_ | hop, end_⟩ := x
  · simp [inner, through] at h
  · rcases h with ⟨rule, slot, h⟩ | ⟨index, h⟩ <;> cases h <;> rfl

lemma owner_of_late {node : Pointer} {x : Lane} (h : x ∈ late node) : x.owner = node := by
  rcases h with ⟨number, h⟩ | h
  · obtain ⟨_, end_⟩ := x
    cases h
    rfl
  · cases h
    rfl

lemma not_late_of_inner {node : Pointer} {x : Lane} (h : x ∈ inner node) : x ∉ late node := by
  obtain ⟨_ | hop, end_⟩ := x
  · simp [inner, through] at h
  · rcases h with ⟨rule, slot, h⟩ | ⟨index, h⟩ <;> cases h <;> simp [late, branchy, through]

lemma late_subset_owned {node : Pointer} (h : node ∈ seen) : late node ⊆ owned seen := by
  intro x hx
  rw [mem_owned, owner_of_late hx]
  exact h

lemma spends_traceInside (hvisit : Tidy visit) {node : PlanNode}
    (hnew : node.outline.pointer ∉ seen) :
    Spends route (owned seen)
      (fun _ => owned (node.outline.pointer :: seen) \ late node.outline.pointer)
      (Plan.traceInside visit route node at_ value) := by
  refine Spends.of_fills (fills_traceInside hvisit node) (fun x hx => ⟨?_, fun _ => ⟨?_, ?_⟩⟩) ?_
  · rwa [mem_owned, owner_of_inner hx]
  · rw [mem_owned, owner_of_inner hx]
    exact List.mem_cons_self
  · exact not_late_of_inner hx
  · intro _ x hx
    refine ⟨List.mem_cons_of_mem _ hx, fun hlate => ?_⟩
    rw [mem_owned, owner_of_late hlate] at hx
    exact hnew hx

lemma spends_traceEach (hvisit : Tidy visit) (nodes : List Pointer) :
    Spends route (owned seen) (fun r => owned r.2)
      (Plan.traceEach visit route at_ nodes value seen) :=
  Spends.foldlM (fun r node _ => hvisit route node at_ r.1 r.2) (value, seen)

lemma spends_traceBranches (hvisit : Tidy visit) {node : Pointer} (hnode : node ∈ seen)
    (branches : List (Matcher × Pointer)) :
    Spends route (owned seen \ late node) (fun _ => owned seen \ {(none, node)})
      (plan.traceBranches visit route node at_ value seen branches.zipIdx []) := by
  have hpair := pairwise_zipIdx branches fun a b hne =>
    disjoint_through (show Hop.branch node a.2 ≠ Hop.branch node b.2 by simpa using hne)
  refine Spends.of_fills (fills_traceBranches hvisit node hpair []) ?_
    fun _ x hx => ⟨hx.1, fun h => hx.2 (Or.inr h)⟩
  rintro x ⟨entry, -, hx⟩
  have hlate : x ∈ late node := Or.inl ⟨entry.2, hx⟩
  refine ⟨fun h => h.2 hlate, fun _ => ⟨late_subset_owned hnode hlate, ?_⟩⟩
  rintro rfl
  exact absurd hx (by simp [through])

lemma spends_traceChain {node : PlanNode} (hnode : node.outline.pointer ∈ seen) :
    Spends route (owned seen \ {(none, node.outline.pointer)}) (fun _ => owned seen)
      (plan.traceChain route node at_ value seen) := by
  refine Spends.of_fills (T := {(none, node.outline.pointer)}) ⟨by simp [sites, Plan.traceChain], ?_⟩
    ?_ fun _ x hx => hx.1
  · intro site hsite
    obtain rfl : site = (route, node.outline.pointer) := by
      simpa [sites, Plan.traceChain] using hsite
    simp [lane]
  · rintro x rfl
    exact ⟨fun h => h.2 rfl, fun _ => hnode⟩

/-- **A visit** of a node that has not been seen spends first the lanes inside the value, then those
of the nodes that apply to the value, then those of the branches, of the side that the condition
selects, and last its own. -/
lemma spends_traceNode (hvisit : Tidy visit) {node : PlanNode}
    (hnew : node.outline.pointer ∉ seen) :
    Spends route (owned seen) (fun r => owned r.2)
      (plan.traceNode visit route node at_ value (node.outline.pointer :: seen)) := by
  have hkept : ∀ {seen' : List Pointer}, owned (node.outline.pointer :: seen) ⊆ owned seen' →
      node.outline.pointer ∈ seen' := fun h =>
    h (show (none, node.outline.pointer) ∈ owned _ from List.mem_cons_self)
  refine (spends_traceInside hvisit hnew).bind fun inside _ => ?_
  have hconjuncts : Spends route (owned (node.outline.pointer :: seen)) (fun r => owned r.2)
      (Plan.traceEach visit route at_ node.outline.conjuncts inside (node.outline.pointer :: seen)) :=
    spends_traceEach hvisit node.outline.conjuncts
  refine (hconjuncts.frame (late_subset_owned List.mem_cons_self)).bind fun joined hjoined => ?_
  have hgrown := hconjuncts.grows joined hjoined
  refine (Spends.of_quiet rfl).bind fun _ _ => ?_
  refine (spends_traceBranches hvisit (hkept hgrown) node.branches).bind fun chosen _ => ?_
  have hselected : Spends route (owned joined.2) (fun r => owned r.2)
      (Plan.traceEach visit route at_ (Plan.selected? node at_.origin).toList chosen joined.2) :=
    spends_traceEach hvisit (Plan.selected? node at_.origin).toList
  refine (hselected.frame ?_).bind fun sided hsided => ?_
  · rintro x rfl
    exact hkept hgrown
  · exact (spends_traceChain (hkept (hgrown.trans (hselected.grows sided hsided)))).bind
      fun _ _ => Spends.pure subset_rfl

/-- **Visits are tidy**, by induction on the budget. -/
lemma tidy_trace (plan : Plan) (steps : ℕ) : Tidy (plan.trace steps) := by
  induction steps with
  | zero =>
    intro route pointer at_ value seen
    refine ⟨fills_of_sites_eq_nil rfl, fun a ha => ?_⟩
    obtain ⟨_, -, ha⟩ := outcome_bind_ok ha
    exact absurd ha (by simp [Pass.halt])
  | succ steps ih =>
    intro route pointer at_ value seen
    refine (Spends.of_quiet rfl).bind fun _ _ => ?_
    show Spends _ _ _ (if _ then _ else _)
    split
    · exact Spends.pure subset_rfl
    · rename_i hvisits
      simp only [Bool.or_eq_true, decide_eq_true_eq, not_or] at hvisits
      have hnew : (plan.node pointer).outline.pointer ∉ seen := by
        rw [Plan.pointer_node]
        exact hvisits.2
      have hnode : Spends route (owned seen) (fun r => owned r.2) (plan.traceNode (plan.trace steps)
          route (plan.node pointer) at_ value ((plan.node pointer).outline.pointer :: seen)) :=
        spends_traceNode ih hnew
      rwa [Plan.pointer_node] at hnode

/-- **No site is come to twice.** -/
theorem nodup_sites (plan : Plan) (steps : ℕ) (value : Json) :
    (plan.traceRun steps value).sites.Nodup :=
  ((tidy_trace plan steps [] "" (.root value) value []).fills.map Prod.fst).1

end Traced

namespace Plan

variable {plan : Plan}

/-! ## The calls of a chain -/

/-- The names of the transforms that a node calls at a path, in order. -/
def namesAt (calls : List Call) (node : Pointer) (path : Pointer) : List String :=
  (calls.filter fun call => call.node = node ∧ call.instancePath = path).map Call.transformation

/-- What is called at a position for a node is its chain, or a beginning of it. -/
def RunsOnce (plan : Plan) (p : Pass Json) : Prop :=
  ∀ node path, namesAt p.calls node path <+: (plan.node node).chain.map Prod.fst

/-- An event tells of a chain that calls transforms. -/
def Runs (plan : Plan) (event : Event) : Prop :=
  event.stage = .chain ∧ (plan.node event.node).chain.isEmpty = false

instance : DecidablePred plan.Runs := fun _ => inferInstanceAs (Decidable (_ ∧ _))

/-- Of a chain a beginning is called, and all of it unless it fails. -/
lemma names_of_runFunctions (context : String → TransformContext) (chain : Chain) (value : Json) :
    (runFunctions context chain value).inputs.map Prod.fst <+: chain.map Prod.fst
      ∧ ∀ last, (runFunctions context chain value).outcome = .ok last →
        (runFunctions context chain value).inputs.map Prod.fst = chain.map Prod.fst := by
  induction chain generalizing value with
  | nil => exact ⟨List.prefix_rfl, fun _ _ => rfl⟩
  | cons entry chain ih =>
    obtain ⟨name, transform⟩ := entry
    rw [runFunctions]
    cases h : (transform (context name) value).outcome with
    | error failure => simp
    | ok next => simpa using ih next

/-- The first function of a chain is called. -/
lemma inputs_ne_nil (context : String → TransformContext) {chain : Chain} (h : chain ≠ [])
    (value : Json) : (runFunctions context chain value).inputs ≠ [] := by
  obtain ⟨⟨name, transform⟩, rest, rfl⟩ := List.exists_cons_of_ne_nil h
  rw [runFunctions]
  cases (transform (context name) value).outcome <;> simp

/-- The names that an event tells were called. -/
def namesOf (plan : Plan) (event : Event) : List String :=
  (plan.ranAt event).calls.map Call.transformation

lemma names_ranAt (event : Event) :
    plan.namesOf event <+: (plan.node event.node).chain.map Prod.fst
      ∧ ((∀ halt, (plan.ranAt event).outcome ≠ .error halt) →
        plan.namesOf event = (plan.node event.node).chain.map Prod.fst)
      ∧ (plan.Runs event → plan.namesOf event ≠ []) := by
  generalize hcontext : (fun name => (⟨name, event.position.path, event.position.key,
    plan.parentSchema (plan.node event.node).outline.pointer⟩ : TransformContext)) = context
  obtain ⟨hbegins, hall⟩ := names_of_runFunctions context (plan.node event.node).chain event.value
  have hfirst : plan.Runs event →
      (runFunctions context (plan.node event.node).chain event.value).inputs.map Prod.fst ≠ [] := by
    intro hruns
    simpa using inputs_ne_nil context (by simpa using hruns.2) event.value
  simp only [namesOf, ranAt, runChain, hcontext]
  cases hout : (runFunctions context (plan.node event.node).chain event.value).outcome with
  | error failure =>
    simp only [List.map_map]
    exact ⟨hbegins, fun h => absurd rfl (h _), hfirst⟩
  | ok last =>
    simp only [List.map_map]
    exact ⟨hbegins, fun _ => hall last hout, hfirst⟩

/-- The events at which a node calls transforms at a path. -/
def ranTo (plan : Plan) (events : List Event) (node path : Pointer) : List Event :=
  events.filter fun event => plan.Runs event ∧ event.node = node ∧ event.position.path = path

lemma namesAt_callsAt_of_ranTo {event : Event} {node path : Pointer}
    (h : plan.Runs event ∧ event.node = node ∧ event.position.path = path) :
    namesAt (plan.callsAt event) node path = plan.namesOf event := by
  obtain ⟨⟨hstage, -⟩, rfl, rfl⟩ := h
  rw [callsAt, if_pos hstage, namesAt, List.filter_eq_self.2, namesOf]
  intro call hcall
  simpa using place_of_mem_ranAt hcall

lemma namesAt_callsAt_of_not {event : Event} {node path : Pointer}
    (h : ¬(plan.Runs event ∧ event.node = node ∧ event.position.path = path)) :
    namesAt (plan.callsAt event) node path = [] := by
  by_cases hstage : event.stage = .chain
  · rw [callsAt, if_pos hstage, namesAt, List.map_eq_nil_iff, List.filter_eq_nil_iff]
    intro call hcall hplace
    obtain ⟨hnode, hpath⟩ := place_of_mem_ranAt hcall
    have hruns : (plan.node event.node).chain.isEmpty = true := by
      simp only [decide_eq_true_eq] at hplace
      by_contra hempty
      exact h ⟨⟨hstage, by simpa using hempty⟩, hnode.symm.trans hplace.1,
        hpath.symm.trans hplace.2⟩
    have hnames : plan.namesOf event <+: (plan.node event.node).chain.map Prod.fst :=
      (names_ranAt event).1
    rw [List.isEmpty_iff.1 hruns] at hnames
    rw [List.map_eq_nil_iff.1 (List.prefix_nil.1 hnames)] at hcall
    simp at hcall
  · simp [callsAt, hstage, namesAt]

/-- **What is called at a position** is what the chains that run there call. -/
lemma namesAt_flatMap (events : List Event) (node path : Pointer) :
    namesAt (events.flatMap plan.callsAt) node path
      = (plan.ranTo events node path).flatMap plan.namesOf := by
  induction events with
  | nil => rfl
  | cons event rest ih =>
    have hrest : namesAt ((event :: rest).flatMap plan.callsAt) node path
        = namesAt (plan.callsAt event) node path
          ++ (plan.ranTo rest node path).flatMap plan.namesOf := by
      rw [← ih]
      simp [namesAt]
    by_cases h : plan.Runs event ∧ event.node = node ∧ event.position.path = path
    · rw [hrest, namesAt_callsAt_of_ranTo h, ranTo, ranTo, List.filter_cons, if_pos (by simpa using h),
        List.flatMap_cons]
    · rw [hrest, namesAt_callsAt_of_not h, ranTo, ranTo, List.filter_cons, if_neg (by simpa using h),
        List.nil_append]

lemma mem_dropLast_of_filter {α : Type} {p : α → Bool} {items rest : List α} {a b : α}
    (h : items.filter p = a :: b :: rest) : a ∈ items.dropLast := by
  obtain rfl | ⟨init, last, rfl⟩ := List.eq_nil_or_concat items
  · simp at h
  · rw [List.concat_eq_append, List.filter_append] at h
    rw [List.concat_eq_append, List.dropLast_concat]
    cases hinit : init.filter p with
    | nil =>
      rw [hinit, List.nil_append] at h
      have hlength := List.length_filter_le p [last]
      simp [h] at hlength
    | cons c cs =>
      rw [hinit, List.cons_append] at h
      obtain rfl := (List.cons.inj h).1
      exact List.mem_of_mem_filter (hinit ▸ List.mem_cons_self)

lemma mem_ranTo {events : List Event} {node path : Pointer} {event : Event} :
    event ∈ plan.ranTo events node path
      ↔ event ∈ events ∧ plan.Runs event ∧ event.node = node ∧ event.position.path = path := by
  simp [ranTo]

/-- Where a second chain runs, the first has been called as a whole, so the calls of both are more
than a chain. -/
lemma runsOnce_iff_length (plan : Plan) (steps : ℕ) (value : Json) :
    plan.RunsOnce (plan.run steps value) ↔ ∀ node path,
      (plan.ranTo (plan.traceRun steps value).events node path).length ≤ 1 := by
  refine forall₂_congr fun node path => ?_
  rw [calls_run, namesAt_flatMap]
  match hran : plan.ranTo (plan.traceRun steps value).events node path with
  | [] => simp
  | [event] =>
    obtain ⟨-, -, rfl, -⟩ := mem_ranTo.1 (hran ▸ List.mem_cons_self)
    simpa using (names_ranAt event).1
  | first :: second :: rest =>
    refine iff_of_false (fun hbegins => ?_) (by simp)
    obtain ⟨-, hruns, rfl, -⟩ := mem_ranTo.1 (hran ▸ List.mem_cons_self)
    obtain ⟨-, hruns', -⟩ := mem_ranTo.1 (hran ▸ List.mem_cons_of_mem first List.mem_cons_self)
    have hinit : first ∈ (plan.traceRun steps value).events.dropLast := mem_dropLast_of_filter hran
    have hwhole : plan.namesOf first = (plan.node first.node).chain.map Prod.fst := by
      refine (names_ranAt first).2.1 fun halt hhalt => ?_
      exact (proceeds_traceRun plan steps value).1 first hinit ⟨hruns.1, halt, hhalt⟩
    have hlength := hbegins.length_le
    have hsecond := List.length_pos_of_ne_nil ((names_ranAt second).2.2 hruns')
    simp only [List.flatMap_cons, List.length_append, hwhole] at hlength
    omega

/-- **A chain runs once a route.**  On every run, what is called at each position for each node is its
chain or a beginning of it, unless the run comes to the node at that position by two routes: what has
been seen on the one is forgotten on the other. -/
theorem runs_once_iff (plan : Plan) (steps : ℕ) (value : Json) :
    plan.RunsOnce (plan.run steps value) ↔
      ∀ event₁ ∈ (plan.traceRun steps value).events, ∀ event₂ ∈ (plan.traceRun steps value).events,
        plan.Runs event₁ → plan.Runs event₂ → event₁.node = event₂.node →
        event₁.position.path = event₂.position.path → event₁.route = event₂.route := by
  rw [runsOnce_iff_length]
  constructor
  · intro hlength event₁ h₁ event₂ h₂ hruns₁ hruns₂ hnode hpath
    have hmem₁ := mem_ranTo.2 ⟨h₁, hruns₁, rfl, rfl⟩
    have hmem₂ := mem_ranTo.2 ⟨h₂, hruns₂, hnode.symm, hpath.symm⟩
    have hone := hlength event₁.node event₁.position.path
    match hran : plan.ranTo (plan.traceRun steps value).events event₁.node event₁.position.path with
    | [] => simp [hran] at hmem₁
    | [event] =>
      rw [hran, List.mem_singleton] at hmem₁ hmem₂
      rw [hmem₁, hmem₂]
    | _ :: _ :: _ => simp [hran] at hone
  · intro hroutes node path
    match hran : plan.ranTo (plan.traceRun steps value).events node path with
    | [] | [_] => simp
    | first :: second :: rest =>
      obtain ⟨h₁, hruns₁, hnode₁, hpath₁⟩ := mem_ranTo.1 (hran ▸ List.mem_cons_self)
      obtain ⟨h₂, hruns₂, hnode₂, hpath₂⟩ :=
        mem_ranTo.1 (hran ▸ List.mem_cons_of_mem first List.mem_cons_self)
      have hroute := hroutes first h₁ second h₂ hruns₁ hruns₂ (hnode₁.trans hnode₂.symm)
        (hpath₁.trans hpath₂.symm)
      have hsites : ((plan.ranTo (plan.traceRun steps value).events node path).map fun event =>
          (event.route, event.node)).Nodup := by
        refine (Traced.nodup_sites plan steps value).sublist (List.Sublist.map _ ?_)
        refine List.monotone_filter_right _ fun event hevent => ?_
        simp only [decide_eq_true_eq] at hevent ⊢
        exact hevent.1.1
      simp [hran, hroute, hnode₁, hnode₂] at hsites

/-! ## Two ways to a definition -/

/-- A schema with two rules for one member, both of which refer to a definition. -/
def doubledSchema : Fragment where
  keywords :=
    [("definitions", .object [("d", .object [("transform", .array [.string "wrap"])])]),
      ("patternProperties", .object [("a", .object [("$ref", .string "#/definitions/d")])]),
      ("properties", .object [("a", .object [("$ref", .string "#/definitions/d")])])]

/-- Options with the transform of the schema. -/
def doubledOptions : Options where
  transforms := Table.ofPairs [("wrap", Transform.ofFunction fun value => .ok (.array [value]))]

/-- The definition runs its chain twice on the member, as the second rule does not know what the first
has seen. -/
theorem doubledSchema_runs_twice : ∃ plan,
    compile (Matcher.build {} [] {}) doubledSchema doubledOptions = .ok plan
      ∧ (plan.apply (.object [("a", .int 1)])).outcome
        = .ok (.object [("a", .array [.array [.int 1]])])
      ∧ namesAt (plan.apply (.object [("a", .int 1)])).calls "/definitions/d" "/a"
        = ["wrap", "wrap"]
      ∧ ¬plan.RunsOnce (plan.apply (.object [("a", .int 1)])) := by
  have hfacts : (match compile (Matcher.build {} [] {}) doubledSchema doubledOptions with
      | .ok plan => decide ((plan.apply (.object [("a", .int 1)])).outcome
          = .ok (.object [("a", .array [.array [.int 1]])])
        ∧ namesAt (plan.apply (.object [("a", .int 1)])).calls "/definitions/d" "/a"
          = ["wrap", "wrap"]
        ∧ (plan.node "/definitions/d").chain.map Prod.fst = ["wrap"])
      | .error _ => false) = true := by
    decide +kernel
  split at hfacts
  · rename_i plan hplan
    obtain ⟨houtcome, hnames, hchain⟩ := of_decide_eq_true hfacts
    refine ⟨plan, hplan, houtcome, hnames, fun honce => ?_⟩
    have hbegins := honce "/definitions/d" "/a"
    rw [hnames, hchain] at hbegins
    exact absurd hbegins (by decide)
  · simp at hfacts

end Plan

end SchemaAlgebra
