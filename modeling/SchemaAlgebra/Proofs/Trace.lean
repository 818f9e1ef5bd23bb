import SchemaAlgebra.Proofs.Ending

/-!
# Traces of the transform pass

What a run does on its way is told by a trace: which nodes it visits, at which positions, and where
it tries branches and runs chains.  `Plan.trace` is the pass with such a trace beside it;
`Plan.pass_traceRun` says that the pass itself is left as it is.

A node is visited once among the nodes that are `seen`, but these are given up in three places: a
member or item is handed on without them, and those visited in a branch are dropped after it.  The
*route* of an event lists the steps (`Hop`) by which the run came out of reach of the nodes seen
before, so events with one route share what they have seen.

* `Traced` — a pass with the events on its way.
* `Traced.Closed.trace` — what holds all along a run, if its parts keep it.
* `Plan.every_visit`, `Plan.every_traceRun` — so for the nodes of the events at their positions, and
  for the positions alone.
* `Plan.calls_run`, `Plan.proceeds_traceRun` — and for the calls, which are those of the chains in the
  trace, and for the chains that fail.
-/

namespace SchemaAlgebra

/-- A step by which a run leaves behind the nodes it has seen. -/
inductive Hop where
  /-- A rule of a node hands on the member in a slot of its value. -/
  | member (node : Pointer) (rule slot : ℕ)
  /-- A node hands on an item. -/
  | item (node : Pointer) (index : ℕ)
  /-- A node tries a branch. -/
  | branch (node : Pointer) (number : ℕ)
deriving DecidableEq

/-- The node that takes the step. -/
def Hop.node : Hop → Pointer
  | member node _ _ => node
  | item node _ => node
  | branch node _ => node

/-- How a run came to a place. -/
abbrev Route := List Hop

/-- What happens at a node. -/
inductive Stage where
  /-- The node is to be visited. -/
  | entry
  /-- Its branches are to be tried. -/
  | union
  /-- Its transforms are to be run. -/
  | chain
deriving DecidableEq

/-- What happens at a node on a run, with the value and the nodes seen at that time. -/
structure Event where
  stage : Stage
  route : Route
  node : Pointer
  position : Position
  value : Json
  seen : List Pointer

/-- A pass with the events on its way. -/
structure Traced (α : Type) where
  events : List Event := []
  pass : Pass α

namespace Traced

variable {α β γ : Type}

/-- A run that goes on with the result of another. -/
def andThen (t : Traced α) (next : α → Traced β) : Traced β where
  events := t.events ++ match t.pass.outcome with
    | .ok a => (next a).events
    | .error _ => []
  pass := t.pass >>= fun a => (next a).pass

instance : Monad Traced where
  pure a := { pass := .done a }
  bind := andThen

/-- A pass without events. -/
def ofPass (p : Pass α) : Traced α :=
  { pass := p }

/-- The run in which only this happens. -/
def emit (event : Event) : Traced Unit :=
  { events := [event], pass := .done () }

/-! ## Laws of traced runs -/

@[simp] lemma pass_pure (a : α) : (pure a : Traced α).pass = pure a := rfl

@[simp] lemma pass_bind (t : Traced α) (next : α → Traced β) :
    (t >>= next).pass = t.pass >>= fun a => (next a).pass := rfl

@[simp] lemma pass_map (f : α → β) (t : Traced α) : (f <$> t).pass = f <$> t.pass := rfl

@[simp] lemma pass_ofPass (p : Pass α) : (ofPass p).pass = p := rfl

@[simp] lemma pass_emit (event : Event) : (emit event).pass = pure () := rfl

@[simp] lemma events_pure (a : α) : (pure a : Traced α).events = [] := rfl

@[simp] lemma events_ofPass (p : Pass α) : (ofPass p).events = [] := rfl

@[simp] lemma events_emit (event : Event) : (emit event).events = [event] := rfl

lemma events_bind_of_ok {t : Traced α} {a : α} (h : t.pass.outcome = .ok a)
    (next : α → Traced β) : (t >>= next).events = t.events ++ (next a).events := by
  show t.events ++ _ = _
  rw [h]

lemma events_bind_of_error {t : Traced α} {halt : Halt} (h : t.pass.outcome = .error halt)
    (next : α → Traced β) : (t >>= next).events = t.events := by
  show t.events ++ _ = _
  rw [h, List.append_nil]

instance : LawfulMonad Traced := by
  have hext : ∀ {δ : Type} {s t : Traced δ}, s.events = t.events → s.pass = t.pass → s = t := by
    rintro δ ⟨⟩ ⟨⟩ rfl rfl
    rfl
  refine LawfulMonad.mk' Traced ?_ ?_ ?_
  · intro δ t
    refine hext ?_ (id_map t.pass)
    cases h : t.pass.outcome with
    | ok a => exact (events_bind_of_ok h _).trans (List.append_nil _)
    | error halt => exact events_bind_of_error h _
  · intro δ ε a next
    exact hext (List.nil_append _) (pure_bind _ _)
  · intro δ ε ζ t f g
    refine hext ?_ (bind_assoc _ _ _)
    cases h : t.pass.outcome with
    | error halt =>
      rw [events_bind_of_error (Pass.outcome_bind_of_error h _), events_bind_of_error h,
        events_bind_of_error h]
    | ok a =>
      rw [events_bind_of_ok h]
      cases hf : (f a).pass.outcome with
      | error halt =>
        rw [events_bind_of_error ((Pass.outcome_bind_of_ok h _).trans hf), events_bind_of_error hf,
          events_bind_of_ok h]
      | ok b =>
        rw [events_bind_of_ok ((Pass.outcome_bind_of_ok h _).trans hf), events_bind_of_ok hf,
          events_bind_of_ok h, List.append_assoc]

lemma mem_events_bind {t : Traced α} {next : α → Traced β} {event : Event} :
    event ∈ (t >>= next).events
      ↔ event ∈ t.events ∨ ∃ a, t.pass.outcome = .ok a ∧ event ∈ (next a).events := by
  cases h : t.pass.outcome with
  | error halt => simp [events_bind_of_error h]
  | ok a => simp [events_bind_of_ok h]

/-- The run with its issues left out. -/
def hush (t : Traced α) : Traced α :=
  { t with pass := t.pass.silenced }

lemma pass_mapM (f : α → Traced β) (items : List α) :
    (items.mapM f).pass = items.mapM fun a => (f a).pass := by
  induction items with
  | nil => simp
  | cons a items ih => simp [ih]

lemma pass_foldlM (f : β → α → Traced β) (items : List α) (b : β) :
    (items.foldlM f b).pass = items.foldlM (fun b a => (f b a).pass) b := by
  induction items generalizing b with
  | nil => simp
  | cons a items ih => simp [ih]

end Traced

/-! ## Branches that are tried -/

/-- What comes of a branch that has been tried: if it has failed, that is all, a result without issues
is taken, and otherwise the issues are set aside and the rest is tried. -/
def Pass.settle (tried : Pass (Json × List Pointer)) (rest : List Issue → Pass Json) : Pass Json :=
  match tried.outcome with
  | .error _ => Prod.fst <$> tried
  | .ok _ => tried.silenced >>= fun result =>
    if tried.issues.isEmpty then pure result.1 else rest tried.issues

namespace Traced

variable {tried : Traced (Json × List Pointer)} {rest : List Issue → Traced Json}

/-- What comes of a branch that has been tried, with the trace. -/
def settle (tried : Traced (Json × List Pointer)) (rest : List Issue → Traced Json) : Traced Json :=
  match tried.pass.outcome with
  | .error _ => Prod.fst <$> tried
  | .ok _ => hush tried >>= fun result =>
    if tried.pass.issues.isEmpty then pure result.1 else rest tried.pass.issues

lemma pass_settle (tried : Traced (Json × List Pointer)) (rest : List Issue → Traced Json) :
    (tried.settle rest).pass = tried.pass.settle fun issues => (rest issues).pass := by
  rw [settle, Pass.settle]
  cases tried.pass.outcome with
  | error halt => exact pass_map _ _
  | ok result =>
    simp only [pass_bind]
    refine congrArg (tried.pass.silenced >>= ·) (funext fun result => ?_)
    split <;> rfl

/-- The branch leaves its events in the trace. -/
lemma mem_events_settle {event : Event} (h : event ∈ tried.events) :
    event ∈ (tried.settle rest).events := by
  rw [settle]
  split
  · rw [← bind_pure_comp]
    exact mem_events_bind.2 (Or.inl h)
  · exact mem_events_bind.2 (Or.inl h)

end Traced

/-! ## The traced pass -/

/-- A visit with a trace, of a place that a route leads to. -/
abbrev TracedVisit := Route → Pointer → Position → Json → List Pointer → Traced (Json × List Pointer)

namespace Plan

open Traced

/-- Visits a node with a member or item, without the nodes seen so far. -/
def traceChild (visit : TracedVisit) (route : Route) (hop : Hop) (at_ : Position) (key : String)
    (child : Pointer) (value : Json) : Traced Json :=
  Prod.fst <$> visit (route ++ [hop]) child (at_.child key value) value []

/-- Visits a node with the members that a rule of another node selects. -/
def traceMembers (visit : TracedVisit) (route : Route) (node : Pointer) (at_ : Position)
    (rule : ((String → Bool) × Pointer) × ℕ) (members : Entries Json) : Traced (Entries Json) :=
  members.zipIdx.mapM fun ((key, value), slot) =>
    if rule.1.1 key then do
      return (key, ← traceChild visit route (.member node rule.2 slot) at_ key rule.1.2 value)
    else return (key, value)

/-- Visits the nodes of items. -/
def traceItems (visit : TracedVisit) (route : Route) (node : PlanNode) (at_ : Position)
    (items : List Json) : Traced (List Json) :=
  items.zipIdx.mapM fun (item, index) =>
    match node.outline.itemNode? index with
    | some child =>
      traceChild visit route (.item node.outline.pointer index) at_ (Pointer.indexToken index)
        child item
    | none => return item

/-- Visits the nodes of the members or items of a value. -/
def traceInside (visit : TracedVisit) (route : Route) (node : PlanNode) (at_ : Position)
    (value : Json) : Traced Json :=
  match value with
  | .object members => do
    return .object (← node.memberRules.zipIdx.foldlM
      (fun members rule => traceMembers visit route node.outline.pointer at_ rule members) members)
  | .array items => do return .array (← traceItems visit route node at_ items)
  | value => return value

/-- Tries the branches of a node in turn. -/
def traceBranches (plan : Plan) (visit : TracedVisit) (route : Route) (node : Pointer)
    (at_ : Position) (value : Json) (seen : List Pointer) :
    List ((Matcher × Pointer) × ℕ) → List Issue → Traced Json
  | [], rejected => ofPass { issues := rejected, outcome := .ok value }
  | ((matcher, branch), number) :: rest, rejected =>
    if !matcher.accepts at_.origin then
      plan.traceBranches visit route node at_ value seen rest rejected
    else if !(plan.node branch).active then return value
    else
      let tried := visit (route ++ [.branch node number]) branch at_ value seen
      match tried.pass.outcome with
      | .error _ => Prod.fst <$> tried
      | .ok _ => do
        let (result, _) ← hush tried
        if tried.pass.issues.isEmpty then return result
        else
          plan.traceBranches visit route node at_ value seen rest (rejected ++ tried.pass.issues)

lemma traceBranches_cons {plan : Plan} {visit : TracedVisit} {route : Route} {node branch : Pointer}
    {at_ : Position} {value : Json} {seen : List Pointer} {matcher : Matcher} {number : ℕ}
    {rest : List ((Matcher × Pointer) × ℕ)} {rejected : List Issue} :
    plan.traceBranches visit route node at_ value seen (((matcher, branch), number) :: rest) rejected
      = if !matcher.accepts at_.origin then
          plan.traceBranches visit route node at_ value seen rest rejected
        else if !(plan.node branch).active then pure value
        else (visit (route ++ [.branch node number]) branch at_ value seen).settle fun issues =>
          plan.traceBranches visit route node at_ value seen rest (rejected ++ issues) :=
  rfl

lemma tryBranches_cons {plan : Plan} {visit : Visit} {branch : Pointer} {at_ : Position}
    {value : Json} {seen : List Pointer} {matcher : Matcher} {rest : List (Matcher × Pointer)}
    {rejected : List Issue} :
    plan.tryBranches visit at_ value seen ((matcher, branch) :: rest) rejected
      = if !matcher.accepts at_.origin then
          plan.tryBranches visit at_ value seen rest rejected
        else if !(plan.node branch).active then pure value
        else (visit branch at_ value seen).settle fun issues =>
          plan.tryBranches visit at_ value seen rest (rejected ++ issues) := by
  rw [tryBranches]
  refine if_congr Iff.rfl rfl (if_congr Iff.rfl rfl ?_)
  generalize visit branch at_ value seen = tried
  rw [Pass.settle]
  cases h : tried.outcome with
  | error halt =>
    simp only [h]
    exact (Pass.andThen_of_error h _).symm
  | ok result =>
    have hsilenced : tried.silenced.outcome = .ok result := h
    simp only [h]
    rw [Pass.bind_eq tried.silenced, Pass.andThen_of_ok hsilenced]
    split
    · show _ = Pass.mk (tried.calls ++ []) ([] ++ []) _
      rw [List.append_nil]
      rfl
    · rfl

/-- Visits nodes in turn with one value. -/
def traceEach (visit : TracedVisit) (route : Route) (at_ : Position) (nodes : List Pointer)
    (value : Json) (seen : List Pointer) : Traced (Json × List Pointer) :=
  nodes.foldlM (fun (value, seen) node => visit route node at_ value seen) (value, seen)

/-- Runs the transforms of a node. -/
def traceChain (plan : Plan) (route : Route) (node : PlanNode) (at_ : Position) (value : Json)
    (seen : List Pointer) : Traced Json where
  events := [⟨.chain, route, node.outline.pointer, at_, value, seen⟩]
  pass := plan.runChain node at_ value

/-- Visits an active node for the first time among those seen. -/
def traceNode (plan : Plan) (visit : TracedVisit) (route : Route) (node : PlanNode) (at_ : Position)
    (value : Json) (seen : List Pointer) : Traced (Json × List Pointer) := do
  let value ← traceInside visit route node at_ value
  let (value, seen) ← traceEach visit route at_ node.outline.conjuncts value seen
  emit ⟨.union, route, node.outline.pointer, at_, value, seen⟩
  let value ← plan.traceBranches visit route node.outline.pointer at_ value seen
    node.branches.zipIdx []
  let (value, seen) ← traceEach visit route at_ (selected? node at_.origin).toList value seen
  return (← plan.traceChain route node at_ value seen, seen)

/-- **The traced pass.** -/
def trace (plan : Plan) : ℕ → TracedVisit
  | 0, route, pointer, at_, value, seen => do
    emit ⟨.entry, route, pointer, at_, value, seen⟩
    ofPass (.halt .exhausted)
  | steps + 1, route, pointer, at_, value, seen => do
    emit ⟨.entry, route, pointer, at_, value, seen⟩
    let node := plan.node pointer
    if !node.active || pointer ∈ seen then return (value, seen)
    else plan.traceNode (plan.trace steps) route node at_ value (pointer :: seen)

/-- Runs the transforms on a value, with a trace. -/
def traceRun (plan : Plan) (steps : ℕ) (value : Json) : Traced Json :=
  Prod.fst <$> plan.trace steps [] "" (.root value) value []

/-! ## The pass is left as it is -/

section Erasure

variable {plan : Plan} {traced : TracedVisit} {visit : Visit}

/-- A visit, but for its trace, is another one. -/
def Erases (traced : TracedVisit) (visit : Visit) : Prop :=
  ∀ route pointer at_ value seen,
    (traced route pointer at_ value seen).pass = visit pointer at_ value seen

lemma mapM_zipIdx {α β : Type} (f : α → Pass β) (items : List α) (first : ℕ) :
    ((items.zipIdx first).mapM fun entry => f entry.1) = items.mapM f := by
  induction items generalizing first with
  | nil => rfl
  | cons a items ih => simp [List.zipIdx_cons, ih]

lemma foldlM_zipIdx {α β : Type} (f : β → α → Pass β) (items : List α) (first : ℕ) (b : β) :
    (items.zipIdx first).foldlM (fun b entry => f b entry.1) b = items.foldlM f b := by
  induction items generalizing first b with
  | nil => rfl
  | cons a items ih => simp [List.zipIdx_cons, ih]

lemma Erases.traceChild (h : Erases traced visit) (route : Route) (hop : Hop) (at_ : Position)
    (key : String) (child : Pointer) (value : Json) :
    (traceChild traced route hop at_ key child value).pass = visitChild visit at_ key child value := by
  rw [Plan.traceChild, pass_map, h, visitChild]

lemma Erases.traceMembers (h : Erases traced visit) (route : Route) (node : Pointer)
    (at_ : Position) (rule : ((String → Bool) × Pointer) × ℕ) (members : Entries Json) :
    (traceMembers traced route node at_ rule members).pass
      = visitMembers visit at_ rule.1.1 rule.1.2 members := by
  rw [Plan.traceMembers, pass_mapM, visitMembers, ← mapM_zipIdx _ members 0]
  refine congrArg₂ _ (funext ?_) rfl
  rintro ⟨⟨key, value⟩, slot⟩
  by_cases hkey : rule.1.1 key = true
  · simp [hkey, h.traceChild]
  · simp [hkey]

lemma Erases.traceItems (h : Erases traced visit) (route : Route) (node : PlanNode)
    (at_ : Position) (items : List Json) :
    (traceItems traced route node at_ items).pass = visitItems visit node at_ items := by
  rw [Plan.traceItems, pass_mapM, visitItems]
  refine congrArg₂ _ (funext ?_) rfl
  rintro ⟨item, index⟩
  cases hnode : node.outline.itemNode? index with
  | none => simp [hnode]
  | some child => simp [hnode, h.traceChild]

lemma Erases.traceInside (h : Erases traced visit) (route : Route) (node : PlanNode)
    (at_ : Position) (value : Json) :
    (traceInside traced route node at_ value).pass = visitInside visit node at_ value := by
  cases value with
  | object members =>
    simp [Plan.traceInside, visitInside, pass_foldlM, h.traceMembers,
      ← foldlM_zipIdx _ node.memberRules 0]
  | array items => simp [Plan.traceInside, visitInside, h.traceItems]
  | _ => rfl

lemma Erases.traceEach (h : Erases traced visit) (route : Route) (at_ : Position)
    (nodes : List Pointer) (value : Json) (seen : List Pointer) :
    (traceEach traced route at_ nodes value seen).pass = visitEach visit at_ nodes value seen := by
  rw [Plan.traceEach, pass_foldlM, visitEach]
  refine congrArg (fun f => nodes.foldlM f (value, seen)) (funext ?_)
  rintro ⟨value, seen⟩
  exact funext fun node => h route node at_ value seen

lemma Erases.traceBranches (h : Erases traced visit) (route : Route) (node : Pointer)
    (at_ : Position) (value : Json) (seen : List Pointer) (branches : List (Matcher × Pointer))
    (first : ℕ) (rejected : List Issue) :
    (plan.traceBranches traced route node at_ value seen (branches.zipIdx first) rejected).pass
      = plan.tryBranches visit at_ value seen branches rejected := by
  induction branches generalizing first rejected with
  | nil => rfl
  | cons entry rest ih =>
    obtain ⟨matcher, branch⟩ := entry
    rw [List.zipIdx_cons, traceBranches_cons, tryBranches_cons]
    split
    · exact ih (first + 1) rejected
    split
    · rfl
    · rw [pass_settle, h]
      exact congrArg (Pass.settle _) (funext fun issues => ih (first + 1) (rejected ++ issues))

lemma Erases.traceNode (h : Erases traced visit) (route : Route) (node : PlanNode)
    (at_ : Position) (value : Json) (seen : List Pointer) :
    (plan.traceNode traced route node at_ value seen).pass
      = plan.visitNode visit node at_ value seen := by
  simp only [Plan.traceNode, visitNode, pass_bind, pass_emit, pure_bind, h.traceInside, h.traceEach,
    h.traceBranches]
  rfl

lemma erases_trace (plan : Plan) (steps : ℕ) : Erases (plan.trace steps) (plan.visit steps) := by
  induction steps with
  | zero => intro route pointer at_ value seen; rfl
  | succ steps ih =>
    intro route pointer at_ value seen
    by_cases hskip : (!(plan.node pointer).active || decide (pointer ∈ seen)) = true
    · simp only [trace, visit, pass_bind, pass_emit, pure_bind, hskip, if_true]
      rfl
    · simp only [trace, visit, pass_bind, pass_emit, pure_bind, hskip, Bool.false_eq_true, if_false,
        ih.traceNode]

/-- **The traced run is the run.** -/
theorem pass_traceRun (plan : Plan) (steps : ℕ) (value : Json) :
    (plan.traceRun steps value).pass = plan.run steps value := by
  rw [traceRun, pass_map, erases_trace, run]

end Erasure

end Plan

/-! ## Where a node hands its value on -/

/-- A node hands its value on to another: one that applies to it, a branch, or the side that its
condition selects. -/
inductive PlanNode.HandsValueTo (node : PlanNode) (origin : Json) : Pointer → Prop
  | conjunct {child} : child ∈ node.outline.conjuncts → HandsValueTo node origin child
  | branch {entry} : entry ∈ node.branches → HandsValueTo node origin entry.2
  | selected {child} : Plan.selected? node origin = some child → HandsValueTo node origin child

/-- What holds of a node at a position holds of all that the node hands its value on to, or a member or
item of it. -/
structure Plan.Keeps (plan : Plan) (R : Pointer → Position → Prop) : Prop where
  member : ∀ {pointer at_ key child}, R pointer at_ → child ∈ (plan.node pointer).memberNodes key →
    ∀ current, R child (at_.child key current)
  item : ∀ {pointer at_ index child}, R pointer at_ →
    (plan.node pointer).outline.itemNode? index = some child →
    ∀ current, R child (at_.child (Pointer.indexToken index) current)
  value : ∀ {pointer at_ child}, R pointer at_ →
    (plan.node pointer).HandsValueTo at_.origin child → R child at_

/-- What children of positions keep, whichever node is visited there. -/
lemma Plan.keeps_of_child (plan : Plan) {R : Position → Prop}
    (hchild : ∀ at_ key current, R at_ → R (at_.child key current)) :
    plan.Keeps fun _ at_ => R at_ where
  member := fun hat _ current => hchild _ _ current hat
  item := fun hat _ current => hchild _ _ current hat
  value := fun hat _ => hat

/-! ## What holds all along a run -/

namespace Traced

open Plan

/-- A property of traced runs that runs have if their parts do. -/
structure Closed (K : ∀ ⦃α : Type⦄, Traced α → Prop) : Prop where
  /-- Passes without calls have it. -/
  quiet : ∀ ⦃α : Type⦄ (p : Pass α), p.calls = [] → K (ofPass p)
  /-- It goes on with the run. -/
  bind : ∀ ⦃α β : Type⦄ (t : Traced α) (next : α → Traced β), K t →
    (∀ a, t.pass.outcome = .ok a → K (next a)) → K (t >>= next)
  /-- Issues do not matter. -/
  hush : ∀ ⦃α : Type⦄ (t : Traced α), K t → K (hush t)

namespace Closed

variable {K : ∀ ⦃α : Type⦄, Traced α → Prop} {α β : Type} {plan : Plan} {visit : TracedVisit}
  {route : Route} {at_ : Position} {value : Json} {seen : List Pointer}

lemma pure (hK : Closed K) (a : α) : K (Pure.pure a : Traced α) :=
  hK.quiet (.done a) rfl

lemma map (hK : Closed K) {t : Traced α} (ht : K t) (f : α → β) : K (f <$> t) := by
  rw [← bind_pure_comp]
  exact hK.bind t _ ht fun a _ => hK.pure (f a)

lemma mapM (hK : Closed K) {f : α → Traced β} {items : List α} (h : ∀ a ∈ items, K (f a)) :
    K (items.mapM f) := by
  induction items with
  | nil => simpa using hK.pure []
  | cons a items ih =>
    rw [List.mapM_cons]
    refine hK.bind _ _ (h a List.mem_cons_self) fun b _ => ?_
    refine hK.bind _ _ (ih fun c hc => h c (List.mem_cons_of_mem _ hc)) fun bs _ => ?_
    exact hK.pure (b :: bs)

lemma foldlM (hK : Closed K) {f : β → α → Traced β} {items : List α}
    (h : ∀ b, ∀ a ∈ items, K (f b a)) (b : β) : K (items.foldlM f b) := by
  induction items generalizing b with
  | nil => simpa using hK.pure b
  | cons a items ih =>
    rw [List.foldlM_cons]
    exact hK.bind _ _ (h b a List.mem_cons_self) fun c _ =>
      ih (fun b a ha => h b a (List.mem_cons_of_mem _ ha)) c

lemma traceInside (hK : Closed K) {node : PlanNode}
    (hmember : ∀ rule ∈ node.memberRules, ∀ key, rule.1 key = true → ∀ hop current,
      K (visit (route ++ [hop]) rule.2 (at_.child key current) current []))
    (hitem : ∀ index child, node.outline.itemNode? index = some child → ∀ hop current,
      K (visit (route ++ [hop]) child (at_.child (Pointer.indexToken index) current) current [])) :
    K (traceInside visit route node at_ value) := by
  cases value with
  | object members =>
    refine hK.map (hK.foldlM (fun members rule hrule => hK.mapM ?_) members) _
    rintro ⟨⟨key, current⟩, slot⟩ _
    by_cases hkey : rule.1.1 key = true
    · simp only [hkey, if_true]
      exact hK.map (hK.map (hmember rule.1 (List.fst_mem_of_mem_zipIdx hrule) key hkey _ _) _) _
    · simp only [hkey, Bool.false_eq_true, if_false]
      exact hK.pure _
  | array items =>
    refine hK.map (hK.mapM ?_) _
    rintro ⟨item, index⟩ _
    cases hnode : node.outline.itemNode? index with
    | none =>
      simp only [hnode]
      exact hK.pure item
    | some child =>
      simp only [hnode]
      exact hK.map (hitem index child hnode _ _) _
  | _ => exact hK.pure _

lemma traceEach (hK : Closed K) {nodes : List Pointer}
    (hvisit : ∀ child ∈ nodes, ∀ value seen, K (visit route child at_ value seen)) :
    K (traceEach visit route at_ nodes value seen) :=
  hK.foldlM (fun r child hchild => hvisit child hchild r.1 r.2) (value, seen)

lemma settle (hK : Closed K) {tried : Traced (Json × List Pointer)} {rest : List Issue → Traced Json}
    (htried : K tried) (hrest : ∀ issues, K (rest issues)) : K (tried.settle rest) := by
  rw [Traced.settle]
  split
  · exact hK.map htried _
  · refine hK.bind _ _ (hK.hush _ htried) fun result _ => ?_
    split
    · exact hK.pure result.1
    · exact hrest _

lemma traceBranches (hK : Closed K) {node : Pointer} (branches : List ((Matcher × Pointer) × ℕ))
    (hvisit : ∀ branch ∈ branches, ∀ hop, K (visit (route ++ [hop]) branch.1.2 at_ value seen))
    (rejected : List Issue) :
    K (plan.traceBranches visit route node at_ value seen branches rejected) := by
  induction branches generalizing rejected with
  | nil => exact hK.quiet _ rfl
  | cons entry rest ih =>
    obtain ⟨⟨matcher, branch⟩, number⟩ := entry
    have ih := ih fun branch hbranch => hvisit branch (List.mem_cons_of_mem _ hbranch)
    rw [traceBranches_cons]
    split
    · exact ih rejected
    split
    · exact hK.pure value
    · exact hK.settle (hvisit _ List.mem_cons_self (.branch node number))
        fun issues => ih (rejected ++ issues)

lemma traceNode (hK : Closed K) {node : PlanNode}
    (hmember : ∀ rule ∈ node.memberRules, ∀ key, rule.1 key = true → ∀ hop current,
      K (visit (route ++ [hop]) rule.2 (at_.child key current) current []))
    (hitem : ∀ index child, node.outline.itemNode? index = some child → ∀ hop current,
      K (visit (route ++ [hop]) child (at_.child (Pointer.indexToken index) current) current []))
    (hvisit : ∀ route child, node.HandsValueTo at_.origin child → ∀ value seen,
      K (visit route child at_ value seen))
    (hunion : ∀ value seen, K (emit ⟨.union, route, node.outline.pointer, at_, value, seen⟩))
    (hchain : ∀ value seen, K (plan.traceChain route node at_ value seen)) :
    K (plan.traceNode visit route node at_ value seen) := by
  refine hK.bind _ _ (hK.traceInside hmember hitem) fun value _ => ?_
  refine hK.bind _ _ (hK.traceEach fun child hchild => hvisit route child (.conjunct hchild))
    fun ⟨value, seen⟩ _ => ?_
  refine hK.bind _ _ (hunion value seen) fun _ _ => ?_
  refine hK.bind _ _ (hK.traceBranches _ (fun branch hbranch hop => ?_) _) fun value _ => ?_
  · exact hvisit _ _ (.branch (List.fst_mem_of_mem_zipIdx hbranch)) _ _
  refine hK.bind _ _ (hK.traceEach fun child hchild =>
    hvisit route child (.selected (Option.mem_toList.1 hchild))) fun ⟨value, seen⟩ _ => ?_
  exact hK.map (hchain value seen) _

/-- **All along a run.**  `R` holds of the nodes that are visited, at their positions. -/
theorem trace (hK : Closed K) {R : Pointer → Position → Prop} (hR : plan.Keeps R)
    (hemit : ∀ event, event.stage ≠ .chain → R event.node event.position → K (emit event))
    (hchain : ∀ route pointer at_ value seen, R pointer at_ →
      K (plan.traceChain route (plan.node pointer) at_ value seen))
    (steps : ℕ) (route : Route) (pointer : Pointer) (at_ : Position) (value : Json)
    (seen : List Pointer) (hat : R pointer at_) :
    K (plan.trace steps route pointer at_ value seen) := by
  induction steps generalizing route pointer at_ value seen with
  | zero =>
    refine hK.bind _ _ (hemit _ (by simp) hat) fun _ _ => ?_
    exact hK.quiet _ rfl
  | succ steps ih =>
    refine hK.bind _ _ (hemit _ (by simp) hat) fun _ _ => ?_
    show K (if _ then _ else _)
    split
    · exact hK.pure _
    · refine hK.traceNode (fun rule hrule key hkey _ current => ih _ _ _ _ _ ?_)
        (fun index child hchild _ current => ih _ _ _ _ _ (hR.item hat hchild current))
        (fun _ child hchild _ _ => ih _ _ _ _ _ (hR.value hat hchild))
        (fun _ _ => hemit _ (by simp) ?_) fun value seen => hchain route pointer at_ value seen hat
      · exact hR.member hat (List.mem_map_of_mem (List.mem_filter.2 ⟨hrule, hkey⟩)) current
      · rwa [pointer_node]

end Closed

/-! ## Events, calls and failures -/

/-- A property of all events. -/
def Every (P : Event → Prop) ⦃α : Type⦄ (t : Traced α) : Prop :=
  ∀ event ∈ t.events, P event

lemma closed_every (P : Event → Prop) : Closed (Every P) where
  quiet := by simp [Every]
  hush := fun _ _ ht => ht
  bind := by
    intro α β t next ht hnext event hevent
    rcases mem_events_bind.1 hevent with hevent | ⟨a, ha, hevent⟩
    · exact ht event hevent
    · exact hnext a ha event hevent

end Traced

namespace Plan

open Traced

variable {plan : Plan}

/-- The run of a chain that an event tells of. -/
def ranAt (plan : Plan) (event : Event) : Pass Json :=
  plan.runChain (plan.node event.node) event.position event.value

lemma place_of_mem_ranAt {event : Event} {call : Call} (h : call ∈ (plan.ranAt event).calls) :
    call.node = event.node ∧ call.instancePath = event.position.path := by
  simp only [ranAt, runChain, pointer_node] at h
  split at h <;>
  · obtain ⟨entry, -, rfl⟩ := List.mem_map.1 h
    exact ⟨rfl, rfl⟩

/-- The calls that an event tells of. -/
def callsAt (plan : Plan) (event : Event) : List Call :=
  if event.stage = .chain then (plan.ranAt event).calls else []

lemma place_of_mem_callsAt {event : Event} {call : Call} (h : call ∈ plan.callsAt event) :
    call.node = event.node ∧ call.instancePath = event.position.path := by
  unfold callsAt at h
  split at h
  · exact place_of_mem_ranAt h
  · simp at h

/-- Whether an event tells of a chain that fails. -/
def FailsAt (plan : Plan) (event : Event) : Prop :=
  event.stage = .chain ∧ ∃ halt, (plan.ranAt event).outcome = .error halt

/-- The events tell of all calls. -/
def Explained (plan : Plan) ⦃α : Type⦄ (t : Traced α) : Prop :=
  t.pass.calls = t.events.flatMap plan.callsAt

lemma closed_explained (plan : Plan) : Closed plan.Explained where
  quiet := fun _ _ hp => hp
  hush := fun _ _ ht => ht
  bind := by
    intro α β t next ht hnext
    cases h : t.pass.outcome with
    | error halt =>
      rw [Explained, events_bind_of_error h, pass_bind, Pass.bind_eq, Pass.andThen_of_error h]
      exact ht
    | ok a =>
      rw [Explained, events_bind_of_ok h, pass_bind, Pass.bind_eq, Pass.andThen_of_ok h,
        List.flatMap_append, ← ht, ← hnext a h]

/-- A chain that fails is the last event of a run that fails. -/
def Proceeds (plan : Plan) ⦃α : Type⦄ (t : Traced α) : Prop :=
  (∀ event ∈ t.events.dropLast, ¬plan.FailsAt event)
    ∧ ∀ a, t.pass.outcome = .ok a → ∀ event ∈ t.events, ¬plan.FailsAt event

lemma closed_proceeds (plan : Plan) : Closed plan.Proceeds where
  quiet := by simp [Proceeds]
  hush := fun _ _ ht => ht
  bind := by
    intro α β t next ht hnext
    cases h : t.pass.outcome with
    | error halt =>
      refine ⟨by rw [events_bind_of_error h]; exact ht.1, fun b hb => ?_⟩
      rw [pass_bind, Pass.outcome_bind_of_error h] at hb
      exact absurd hb (by simp)
    | ok a =>
      have hbefore := ht.2 a h
      obtain ⟨hinit, hall⟩ := hnext a h
      rw [Proceeds, events_bind_of_ok h, pass_bind, Pass.outcome_bind_of_ok h]
      refine ⟨fun event hevent => ?_, fun b hb event hevent => ?_⟩
      · by_cases hnil : (next a).events = []
        · rw [hnil, List.append_nil] at hevent
          exact hbefore event (List.dropLast_subset _ hevent)
        · rw [List.dropLast_append_of_ne_nil hnil] at hevent
          exact (List.mem_append.1 hevent).elim (hbefore event) (hinit event)
      · exact (List.mem_append.1 hevent).elim (hbefore event) (hall b hb event)

/-- **The calls of a run are those of the chains in its trace.** -/
theorem calls_run (plan : Plan) (steps : ℕ) (value : Json) :
    (plan.run steps value).calls = (plan.traceRun steps value).events.flatMap plan.callsAt := by
  rw [← pass_traceRun]
  have hK := plan.closed_explained
  refine hK.map (hK.trace (plan.keeps_of_child (R := fun _ => True) fun _ _ _ _ => trivial) ?_ ?_
    steps _ _ _ _ _ trivial) _
  · intro event hstage _
    show [] = [event].flatMap plan.callsAt
    simp [callsAt, hstage]
  · intro route pointer at_ value seen _
    simp [Explained, traceChain, callsAt, ranAt, pointer_node]

/-- **A run goes on only after chains that do not fail.** -/
theorem proceeds_traceRun (plan : Plan) (steps : ℕ) (value : Json) :
    plan.Proceeds (plan.traceRun steps value) := by
  have hK := plan.closed_proceeds
  refine hK.map (hK.trace (plan.keeps_of_child (R := fun _ => True) fun _ _ _ _ => trivial) ?_ ?_
    steps _ _ _ _ _ trivial) _
  · intro event hstage _
    simp [Proceeds, FailsAt, hstage]
  · intro route pointer at_ value seen _
    simp only [Proceeds, traceChain, FailsAt, ranAt, pointer_node]
    refine ⟨by simp, fun a ha => ?_⟩
    simp [ha]

/-- The nodes of all events have at their positions what the root has and a run keeps. -/
theorem every_visit (plan : Plan) (steps : ℕ) (value : Json) {R : Pointer → Position → Prop}
    (hR : plan.Keeps R) (hroot : R "" (.root value)) :
    Every (fun event => R event.node event.position) (plan.traceRun steps value) := by
  have hK := closed_every fun event => R event.node event.position
  refine hK.map (hK.trace hR ?_ ?_ steps _ _ _ _ _ hroot) _
  · intro event _ hat
    simpa [Every] using hat
  · intro route pointer at_ value seen hat
    simpa [Every, traceChain, pointer_node] using hat

/-- The positions of all events have a property that the root has and children keep. -/
theorem every_traceRun (plan : Plan) (steps : ℕ) (value : Json) {R : Position → Prop}
    (hroot : R (.root value)) (hchild : ∀ at_ key current, R at_ → R (at_.child key current)) :
    Every (fun event => R event.position) (plan.traceRun steps value) :=
  plan.every_visit steps value (plan.keeps_of_child hchild) hroot

end Plan

end SchemaAlgebra
