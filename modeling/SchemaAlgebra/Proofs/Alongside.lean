import SchemaAlgebra.Proofs.Trace

/-!
# Runs side by side

A run goes along with the traced run of another plan if it leads to the same, but for the schemas that
its issues show, provided that the events of the trace have some property (`Plan.Alongside`).  Sequences
go along if their parts do, so the property need only help where the plans differ.

* `Plan.alongside_inside`, `Plan.alongside_each`, `Plan.alongside_branches`, `Plan.alike_runChain` — so
  do the parts of a visit.
* `Plan.tryBranches_front`, `Plan.tryBranches_back` — what branches that are not active do among those
  before or after which they are listed: one that accepts the value is taken.
-/

namespace SchemaAlgebra

/-- The issue without the schema that it is about. -/
def Issue.bare (issue : Issue) : Issue :=
  { issue with schema := none, parentSchema := none }

/-- The transform makes no use of the schema that lists it. -/
def Transform.IgnoresSchema (transform : Transform) : Prop :=
  ∀ context schema value, transform { context with parentSchema := schema } value
    = transform context value

/-! ## Passes that lead to the same -/

/-- Passes lead to the same, but for the schemas that their issues show. -/
structure Pass.Alike {α : Type} (p q : Pass α) : Prop where
  calls : p.calls = q.calls
  issues : p.issues.map Issue.bare = q.issues.map Issue.bare
  outcome : p.outcome = q.outcome

namespace Pass

variable {α β : Type} {p q : Pass α}

lemma Alike.refl (p : Pass α) : p.Alike p := ⟨rfl, rfl, rfl⟩

lemma Alike.isEmpty_issues (h : p.Alike q) : p.issues.isEmpty = q.issues.isEmpty := by
  have hlength := congrArg List.length h.issues
  simp only [List.length_map] at hlength
  rw [Bool.eq_iff_iff, List.isEmpty_iff_length_eq_zero, List.isEmpty_iff_length_eq_zero, hlength]

lemma Alike.bind {next next' : α → Pass β} (h : p.Alike q)
    (hnext : ∀ a, q.outcome = .ok a → (next a).Alike (next' a)) :
    (p >>= next).Alike (q >>= next') := by
  cases hq : q.outcome with
  | error halt =>
    rw [bind_eq, bind_eq, andThen_of_error hq, andThen_of_error (h.outcome.trans hq)]
    exact ⟨h.calls, h.issues, rfl⟩
  | ok a =>
    have hrest := hnext a hq
    rw [bind_eq, bind_eq, andThen_of_ok hq, andThen_of_ok (h.outcome.trans hq)]
    refine ⟨by rw [h.calls, hrest.calls], ?_, hrest.outcome⟩
    rw [List.map_append, List.map_append, h.issues, hrest.issues]

/-- The run without its issues, if it gets to a result and they are to be dropped. -/
def letGo (drop : Bool) (p : Pass α) : Pass α :=
  if drop && p.outcome.isOk then p.silenced else p

lemma letGo_of_quiet {drop : Bool} (h : p.issues = []) : p.letGo drop = p := by
  have hsilenced : p.silenced = p := by rw [silenced, ← h]
  rw [letGo, hsilenced, ite_self]

lemma letGo_of_error {drop : Bool} {halt : Halt} (h : p.outcome = .error halt) :
    p.letGo drop = p := by
  simp [letGo, h, Except.isOk, Except.toBool]

lemma letGo_bind {drop : Bool} {a : α} (h : p.outcome = .ok a) (hquiet : p.issues = [])
    (next : α → Pass β) : (p >>= next).letGo drop = p >>= fun a => (next a).letGo drop := by
  rw [bind_eq, bind_eq, andThen_of_ok h, andThen_of_ok h, letGo, letGo]
  split <;> simp [silenced, hquiet]

/-- Only the issues of what is tried last are left to be let go. -/
lemma letGo_settle {drop : Bool} {tried : Pass (Json × List Pointer)} {rest : List Issue → Pass Json} :
    (tried.settle rest).letGo drop = tried.settle fun issues => (rest issues).letGo drop := by
  rw [settle, settle]
  cases h : tried.outcome with
  | error halt =>
    have hfails : (Prod.fst <$> tried).outcome = .error halt := by
      rw [← bind_pure_comp]
      exact outcome_bind_of_error h _
    exact letGo_of_error hfails
  | ok result =>
    have hsilenced : tried.silenced.outcome = .ok result := h
    simp only
    rw [letGo_bind hsilenced rfl]
    refine congrArg (tried.silenced >>= ·) (funext fun result => ?_)
    split
    · exact letGo_of_quiet rfl
    · rfl

end Pass

namespace Plan

open Traced

/-- A pass leads to the same as a traced one, if all events of that have a property. -/
def Alongside {α : Type} (P : Event → Prop) (p : Pass α) (t : Traced α) : Prop :=
  (∀ event ∈ t.events, P event) → p.Alike t.pass

section
variable {α β : Type} {P : Event → Prop}

lemma alongside_pure (a : α) : Alongside P (pure a) (pure a) :=
  fun _ => .refl _

/-- **Sequences.**  The events of the first part may be used for the rest. -/
lemma Alongside.bind {p : Pass α} {t : Traced α} {next : α → Pass β} {next' : α → Traced β}
    (h : Alongside P p t) (hnext : (∀ event ∈ t.events, P event) → ∀ a, t.pass.outcome = .ok a →
      Alongside P (next a) (next' a)) : Alongside P (p >>= next) (t >>= next') := by
  intro hevents
  have hfirst : ∀ event ∈ t.events, P event := fun event hevent =>
    hevents event (mem_events_bind.2 (Or.inl hevent))
  refine (h hfirst).bind fun a ha => hnext hfirst a ha fun event hevent => ?_
  exact hevents event (mem_events_bind.2 (Or.inr ⟨a, ha, hevent⟩))

/-- An event that the other run does not have may be used for the rest. -/
lemma Alongside.emit {p : Pass α} {event : Event} {next : Unit → Traced α}
    (h : P event → Alongside P p (next ())) : Alongside P p (Traced.emit event >>= next) := by
  have hbind : Alongside P (pure () >>= fun _ => p) (Traced.emit event >>= next) :=
    Alongside.bind (fun _ => .refl _) fun hevents _ _ => h (hevents event (List.mem_singleton_self _))
  exact hbind

lemma Alongside.map {p : Pass α} {t : Traced α} (h : Alongside P p t) (f : α → β) :
    Alongside P (f <$> p) (f <$> t) := by
  rw [← bind_pure_comp, ← bind_pure_comp]
  exact h.bind fun _ a _ => alongside_pure (f a)

lemma alongside_mapM {f : α → Pass β} {g : α → Traced β} {items : List α}
    (h : ∀ a ∈ items, Alongside P (f a) (g a)) : Alongside P (items.mapM f) (items.mapM g) := by
  induction items with
  | nil => simpa using alongside_pure []
  | cons a items ih =>
    rw [List.mapM_cons, List.mapM_cons]
    refine (h a List.mem_cons_self).bind fun _ b _ => ?_
    refine (ih fun c hc => h c (List.mem_cons_of_mem _ hc)).bind fun _ bs _ => ?_
    exact alongside_pure (b :: bs)

lemma alongside_foldlM {f : β → α → Pass β} {g : β → α → Traced β} {items : List α}
    (h : ∀ b, ∀ a ∈ items, Alongside P (f b a) (g b a)) (b : β) :
    Alongside P (items.foldlM f b) (items.foldlM g b) := by
  induction items generalizing b with
  | nil => simpa using alongside_pure b
  | cons a items ih =>
    rw [List.foldlM_cons, List.foldlM_cons]
    exact (h b a List.mem_cons_self).bind fun _ c _ =>
      ih (fun b a ha => h b a (List.mem_cons_of_mem _ ha)) c

end

/-! ## Parts of a visit -/

section
variable {P : Event → Prop} {visit : Visit} {traced : TracedVisit} {route : Route} {at_ : Position}
  {node node' : PlanNode} {value : Json} {seen : List Pointer}

/-- Members and items go to nodes whose visits go along. -/
lemma alongside_inside (hrules : node'.memberRules = node.memberRules)
    (hitems : node'.outline.itemNode? = node.outline.itemNode?)
    (hvisit : ∀ child, (∃ rule ∈ node.memberRules, rule.2 = child)
        ∨ (∃ index, node.outline.itemNode? index = some child) → ∀ route at_ value seen,
      Alongside P (visit child at_ value seen) (traced route child at_ value seen)) :
    Alongside P (visitInside visit node at_ value) (traceInside traced route node' at_ value) := by
  cases value with
  | object members =>
    simp only [visitInside, traceInside, hrules]
    refine Alongside.bind ?_ fun _ _ _ => alongside_pure _
    rw [← foldlM_zipIdx _ node.memberRules 0]
    refine alongside_foldlM (fun members rule hrule => ?_) members
    have hmem : rule.1 ∈ node.memberRules := List.fst_mem_of_mem_zipIdx hrule
    rw [visitMembers, traceMembers, ← mapM_zipIdx _ members 0]
    refine alongside_mapM ?_
    rintro ⟨⟨key, current⟩, slot⟩ _
    by_cases hkey : rule.1.1 key = true
    · simp only [hkey, if_true]
      refine Alongside.bind ?_ fun _ _ _ => alongside_pure _
      exact (hvisit rule.1.2 (Or.inl ⟨rule.1, hmem, rfl⟩) _ _ _ _).map _
    · simp only [hkey, Bool.false_eq_true, if_false]
      exact alongside_pure _
  | array items =>
    simp only [visitInside, traceInside]
    refine Alongside.bind ?_ fun _ _ _ => alongside_pure _
    refine alongside_mapM ?_
    rintro ⟨item, index⟩ _
    simp only [hitems]
    cases hnode : node.outline.itemNode? index with
    | none => exact alongside_pure item
    | some child => exact (hvisit child (Or.inr ⟨index, hnode⟩) _ _ _ _).map _
  | _ => exact alongside_pure _

lemma alongside_each {nodes : List Pointer} (hvisit : ∀ child ∈ nodes, ∀ value seen,
      Alongside P (visit child at_ value seen) (traced route child at_ value seen)) :
    Alongside P (visitEach visit at_ nodes value seen)
      (traceEach traced route at_ nodes value seen) :=
  alongside_foldlM (fun r child hchild => hvisit child hchild r.1 r.2) (value, seen)

end

/-! ## Branches -/

section
variable {plan : Plan} {visit : Visit} {at_ : Position} {value : Json} {seen : List Pointer}
  {idle others : List (Matcher × Pointer)} {rejected : List Issue}

/-- Some branch accepts the value as it was before the run. -/
def anyAccepts (branches : List (Matcher × Pointer)) (origin : Json) : Bool :=
  branches.any fun branch => branch.1.accepts origin

/-- **Idle branches before others.**  If one of them accepts the value, nothing is done. -/
lemma tryBranches_front (hidle : ∀ branch ∈ idle, (plan.node branch.2).active = false) :
    plan.tryBranches visit at_ value seen (idle ++ others) rejected
      = if anyAccepts idle at_.origin then .done value
        else plan.tryBranches visit at_ value seen others rejected := by
  induction idle with
  | nil => rfl
  | cons branch idle ih =>
    have hrest := ih fun branch hbranch => hidle branch (List.mem_cons_of_mem _ hbranch)
    have hfirst := hidle branch List.mem_cons_self
    obtain ⟨matcher, pointer⟩ := branch
    rw [List.cons_append, tryBranches]
    cases haccepts : matcher.accepts at_.origin with
    | true => simp [anyAccepts, haccepts, hfirst]
    | false =>
      have hany : anyAccepts ((matcher, pointer) :: idle) at_.origin = anyAccepts idle at_.origin := by
        simp [anyAccepts, haccepts]
      rw [hany, ← hrest]
      rfl

/-- **Idle branches after others.**  If one of them accepts the value, the complaints of the others are
let go. -/
lemma tryBranches_back (hidle : ∀ branch ∈ idle, (plan.node branch.2).active = false) :
    plan.tryBranches visit at_ value seen (others ++ idle) rejected
      = (plan.tryBranches visit at_ value seen others rejected).letGo
          (anyAccepts idle at_.origin) := by
  induction others generalizing rejected with
  | nil =>
    have halone : plan.tryBranches visit at_ value seen (idle ++ []) rejected
        = if anyAccepts idle at_.origin then .done value
          else plan.tryBranches visit at_ value seen [] rejected := tryBranches_front hidle
    rw [List.append_nil] at halone
    rw [List.nil_append, halone]
    cases anyAccepts idle at_.origin <;> rfl
  | cons branch others ih =>
    obtain ⟨matcher, pointer⟩ := branch
    rw [List.cons_append, tryBranches_cons, tryBranches_cons]
    split
    · exact ih
    split
    · exact (Pass.letGo_of_quiet rfl).symm
    · rw [Pass.letGo_settle]
      exact congrArg (Pass.settle _) (funext fun issues => ih)

end

/-- **A branch that is tried** goes along, and so does what is tried after it. -/
lemma Alongside.settle {P : Event → Prop} {tried : Pass (Json × List Pointer)}
    {tried' : Traced (Json × List Pointer)} {rest : List Issue → Pass Json}
    {rest' : List Issue → Traced Json} (htried : Alongside P tried tried')
    (hrest : tried.issues.map Issue.bare = tried'.pass.issues.map Issue.bare →
      Alongside P (rest tried.issues) (rest' tried'.pass.issues)) :
    Alongside P (tried.settle rest) (tried'.settle rest') := by
  intro hevents
  have halike := htried fun event hevent => hevents event (mem_events_settle hevent)
  revert hevents
  rw [Pass.settle, Traced.settle, halike.outcome]
  cases tried'.pass.outcome with
  | error halt => exact htried.map Prod.fst
  | ok result =>
    have hhushed : Alongside P tried.silenced (hush tried') := fun _ =>
      ⟨halike.calls, rfl, halike.outcome⟩
    refine hhushed.bind fun _ result _ => ?_
    rw [halike.isEmpty_issues]
    split
    · exact alongside_pure result.1
    · exact hrest halike.issues

/-- Branches with the same pointers and verdicts go along if their visits do. -/
lemma alongside_branches {P : Event → Prop} {plan plan' : Plan} {visit : Visit}
    {traced : TracedVisit} {route : Route} {pointer : Pointer} {at_ : Position} {value : Json}
    {seen : List Pointer} {branches branches' : List (Matcher × Pointer)}
    (hsame : List.Forall₂ (fun branch branch' => branch.2 = branch'.2
      ∧ branch.1.accepts at_.origin = branch'.1.accepts at_.origin) branches branches')
    (hactive : ∀ branch ∈ branches', (plan'.node branch.2).active = (plan.node branch.2).active)
    (hvisit : ∀ branch ∈ branches', ∀ route,
      Alongside P (visit branch.2 at_ value seen) (traced route branch.2 at_ value seen))
    {rejected rejected' : List Issue}
    (hrejected : rejected.map Issue.bare = rejected'.map Issue.bare) (first : ℕ) :
    Alongside P (plan.tryBranches visit at_ value seen branches rejected)
      (plan'.traceBranches traced route pointer at_ value seen (branches'.zipIdx first) rejected') := by
  induction hsame generalizing rejected rejected' first with
  | nil => exact fun _ => ⟨rfl, hrejected, rfl⟩
  | @cons branch branch' branches branches' hbranch _ ih =>
    obtain ⟨matcher, child⟩ := branch
    obtain ⟨matcher', child'⟩ := branch'
    obtain ⟨rfl, hverdict⟩ := hbranch
    have hrest := fun {rejected rejected' : List Issue}
        (h : rejected.map Issue.bare = rejected'.map Issue.bare) =>
      ih (fun branch hbranch => hactive branch (List.mem_cons_of_mem _ hbranch))
        (fun branch hbranch => hvisit branch (List.mem_cons_of_mem _ hbranch)) h (first + 1)
    have hfirst : (plan'.node child).active = (plan.node child).active :=
      hactive _ List.mem_cons_self
    simp only at hverdict
    rw [List.zipIdx_cons, tryBranches_cons, traceBranches_cons, hverdict, hfirst]
    split
    · exact hrest hrejected
    split
    · exact alongside_pure value
    · refine (hvisit _ List.mem_cons_self _).settle fun hissues => hrest ?_
      rw [List.map_append, List.map_append, hrejected, hissues]

/-! ## Chains -/

lemma runFunctions_congr {context context' : String → TransformContext} {chain : Chain}
    (h : ∀ entry ∈ chain, ∀ value, entry.2 (context entry.1) value = entry.2 (context' entry.1) value)
    (value : Json) : runFunctions context chain value = runFunctions context' chain value := by
  induction chain generalizing value with
  | nil => rfl
  | cons entry chain ih =>
    obtain ⟨name, transform⟩ := entry
    have hrest := ih fun entry hentry => h entry (List.mem_cons_of_mem _ hentry)
    have hfirst := h _ List.mem_cons_self value
    simp only at hfirst
    simp only [runFunctions, hfirst, hrest]

/-- A chain does the same in another plan, if the schema that lists it is the same or does not
matter. -/
lemma alike_runChain {plan plan' : Plan} {node node' : PlanNode}
    (hpointer : node'.outline.pointer = node.outline.pointer) (hchain : node'.chain = node.chain)
    (hschema : plan'.parentSchema node.outline.pointer = plan.parentSchema node.outline.pointer
      ∨ ∀ entry ∈ node.chain, entry.2.IgnoresSchema) (at_ : Position) (value : Json) :
    (plan.runChain node at_ value).Alike (plan'.runChain node' at_ value) := by
  have hfunctions : runFunctions (fun name => ⟨name, at_.path, at_.key,
        plan'.parentSchema node.outline.pointer⟩) node.chain value
      = runFunctions (fun name => ⟨name, at_.path, at_.key,
        plan.parentSchema node.outline.pointer⟩) node.chain value := by
    refine runFunctions_congr (fun entry hentry value => ?_) value
    rcases hschema with hschema | hschema
    · rw [hschema]
    · exact hschema entry hentry ⟨entry.1, at_.path, at_.key, _⟩ _ value
  simp only [runChain, hpointer, hchain, hfunctions]
  split
  · exact .refl _
  · refine ⟨rfl, ?_, rfl⟩
    simp only [List.map_map]
    rfl

end Plan

end SchemaAlgebra
