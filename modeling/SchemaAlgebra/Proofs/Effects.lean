import SchemaAlgebra.Proofs.Trace

/-!
# What a run does to a value

A visit takes a value apart, hands a part on, and puts the value together again, over and over.  So what
relates the value before and after, given the calls made in between, need only be known of a chain and
be kept by a few ways of putting visits together: one after the other, one that is discarded, and one
inside a value.

* `Pass.Yields` — what holds of the calls and of the result of a pass that comes to one.
* `Plan.Composes` — a relation of that kind.
* `Plan.Composes.visit`, `Plan.Composes.run` — it relates a value to what a visit and a run make of it.

A run that does not come to a result stops for a reason that some chain, or the budget, has.
-/

namespace SchemaAlgebra

/-! ## Results and calls -/

namespace Pass

variable {α β : Type} {H : Halt → Prop} {p : Pass α}

/-- The result of a pass satisfies `Q` together with the calls made; if there is none, `H` holds of the
reason. -/
structure Yields (H : Halt → Prop) (p : Pass α) (Q : List Call → α → Prop) : Prop where
  ok : ∀ a, p.outcome = .ok a → Q p.calls a
  error : ∀ halt, p.outcome = .error halt → H halt

lemma yields_pure {a : α} {Q : List Call → α → Prop} (h : Q [] a) : Yields H (pure a) Q where
  ok := by
    intro b hb
    obtain rfl : a = b := Except.ok.inj hb
    exact h
  error := fun halt hhalt => absurd hhalt (by simp [pure, done])

lemma Yields.imp {Q R : List Call → α → Prop} (h : p.Yields H Q)
    (himp : ∀ calls a, Q calls a → R calls a) : p.Yields H R :=
  ⟨fun a ha => himp _ a (h.ok a ha), h.error⟩

lemma Yields.bind {Q : List Call → α → Prop} {R : List Call → β → Prop} {next : α → Pass β}
    (h : p.Yields H Q)
    (hnext : ∀ calls a, Q calls a → (next a).Yields H fun more b => R (calls ++ more) b) :
    (p >>= next).Yields H R := by
  cases hp : p.outcome with
  | error halt =>
    refine ⟨fun b hb => ?_, fun other hother => ?_⟩
    · rw [outcome_bind_of_error hp] at hb
      exact absurd hb (by simp)
    · rw [outcome_bind_of_error hp] at hother
      exact Except.error.inj hother ▸ h.error halt hp
  | ok a =>
    have hresult := hnext _ a (h.ok a hp)
    refine ⟨fun b hb => ?_, fun halt hhalt => hresult.error halt ?_⟩
    · rw [outcome_bind_of_ok hp] at hb
      rw [bind_eq, andThen_of_ok hp]
      exact hresult.ok b hb
    · rwa [outcome_bind_of_ok hp] at hhalt

lemma Yields.map {Q : List Call → α → Prop} {R : List Call → β → Prop} {f : α → β}
    (h : p.Yields H Q) (hmap : ∀ calls a, Q calls a → R calls (f a)) : (f <$> p).Yields H R := by
  rw [← bind_pure_comp]
  exact h.bind fun calls a ha => yields_pure ((List.append_nil calls).symm ▸ hmap calls a ha)

/-- What each step of a fold keeps, the fold keeps. -/
lemma yields_foldlM {f : β → α → Pass β} {I : List Call → β → Prop} (items : List α)
    (hstep : ∀ calls b, I calls b → ∀ a ∈ items,
      (f b a).Yields H fun more c => I (calls ++ more) c)
    (calls : List Call) (b : β) (hb : I calls b) :
    (items.foldlM f b).Yields H fun more c => I (calls ++ more) c := by
  induction items generalizing calls b with
  | nil => exact yields_pure ((List.append_nil calls).symm ▸ hb)
  | cons a items ih =>
    rw [List.foldlM_cons]
    refine (hstep calls b hb a List.mem_cons_self).bind fun more c hc => ?_
    have hrest := ih (fun calls b hb d hd => hstep calls b hb d (List.mem_cons_of_mem _ hd)) (calls ++ more) c hc
    exact hrest.imp fun last d hd => by rwa [List.append_assoc] at hd

/-- A branch that is tried is taken, or leaves its calls to what is tried instead. -/
lemma Yields.settle {tried : Pass (Json × List Pointer)} {rest : List Issue → Pass Json}
    {Q : List Call → Json → Prop} (h : tried.Yields H fun calls r => Q calls r.1)
    (hrest : ∀ issues calls value, Q calls value →
      (rest issues).Yields H fun more value => Q (calls ++ more) value) :
    (tried.settle rest).Yields H Q := by
  rw [Pass.settle]
  split
  · exact h.map fun _ _ hr => hr
  · have hsilenced : tried.silenced.Yields H fun calls r => Q calls r.1 := ⟨h.ok, h.error⟩
    refine hsilenced.bind fun calls r hr => ?_
    split
    · exact yields_pure ((List.append_nil calls).symm ▸ hr)
    · exact hrest _ calls r.1 hr

end Pass

namespace Plan

open Pass

/-! ## Relations that compose -/

/-- A relation between the values at a place before and after some calls, that each chain of a plan has
and that visits keep when they are put together; `H` holds of the reasons for which a run stops. -/
structure Composes (plan : Plan) (H : Halt → Prop) (I : Pointer → List Call → Json → Json → Prop) :
    Prop where
  /-- Doing nothing. -/
  refl : ∀ path x, I path [] x x
  /-- One visit after the other. -/
  trans : ∀ {path calls more x y z}, I path calls x y → I path more y z → I path (calls ++ more) x z
  /-- One visit instead of another that is discarded. -/
  discard : ∀ {path calls more x y z}, I path calls x y → I path more x z →
    I path (calls ++ more) x z
  /-- A visit of a member. -/
  member : ∀ {path calls key current new} (before after : Entries Json),
    I (Pointer.child path key) calls current new →
      I path calls (.object (before ++ (key, current) :: after))
        (.object (before ++ (key, new) :: after))
  /-- A visit of an item. -/
  item : ∀ {path calls current new} (before after : List Json),
    I (Pointer.child path (Pointer.indexToken before.length)) calls current new →
      I path calls (.array (before ++ current :: after)) (.array (before ++ new :: after))
  /-- The chain of a node. -/
  chain : ∀ pointer at_ value, (plan.runChain (plan.node pointer) at_ value).Yields H
    fun calls result => I at_.path calls value result
  /-- The budget. -/
  budget : H .exhausted

namespace Composes

variable {plan : Plan} {H : Halt → Prop} {I : Pointer → List Call → Json → Json → Prop}

section Parts

variable {visit : Visit} {node : PlanNode} {at_ : Position} {value : Json} {seen : List Pointer}
  (hI : plan.Composes H I) (hvisit : ∀ child at_ value seen,
  (visit child at_ value seen).Yields H fun calls r => I at_.path calls value r.1)

include hI hvisit

omit hI in
lemma visitChild (key : String) (child : Pointer) :
    (visitChild visit at_ key child value).Yields H fun calls result =>
      I (Pointer.child at_.path key) calls value result :=
  (hvisit child (at_.child key value) value []).map fun _ _ hr => hr

/-- Members are visited one after another, each among those that have been and those that have not. -/
lemma visitMembers (rule : (String → Bool) × Pointer) (before members : Entries Json) :
    (visitMembers visit at_ rule.1 rule.2 members).Yields H fun calls results =>
      I at_.path calls (.object (before ++ members)) (.object (before ++ results)) := by
  induction members generalizing before with
  | nil => exact yields_pure (hI.refl _ _)
  | cons member members ih =>
    obtain ⟨key, current⟩ := member
    rw [Plan.visitMembers, List.mapM_cons]
    refine Yields.bind (Q := fun calls (result : String × Json) => I at_.path calls
      (.object (before ++ (key, current) :: members)) (.object (before ++ result :: members))) ?_ ?_
    · cases hkey : rule.1 key with
      | false =>
        simp only [hkey, Bool.false_eq_true, if_false]
        exact yields_pure (hI.refl _ _)
      | true =>
        simp only [hkey, if_true]
        exact (visitChild hvisit key rule.2).map fun _ _ hr => hI.member before members hr
    · intro calls result hresult
      refine (ih (before ++ [result])).bind fun more results hresults => yields_pure ?_
      rw [List.append_nil]
      refine hI.trans hresult ?_
      simpa using hresults

lemma visitItems (before items : List Json) :
    ((items.zipIdx before.length).mapM fun (entry : Json × ℕ) =>
      match node.outline.itemNode? entry.2 with
      | some child => Plan.visitChild visit at_ (Pointer.indexToken entry.2) child entry.1
      | none => pure entry.1).Yields H fun calls results =>
        I at_.path calls (.array (before ++ items)) (.array (before ++ results)) := by
  induction items generalizing before with
  | nil => exact yields_pure (hI.refl _ _)
  | cons item items ih =>
    rw [List.zipIdx_cons, List.mapM_cons]
    refine Yields.bind (Q := fun calls result => I at_.path calls
      (.array (before ++ item :: items)) (.array (before ++ result :: items))) ?_ ?_
    · cases hnode : node.outline.itemNode? before.length with
      | none => exact yields_pure (hI.refl _ _)
      | some child => exact (visitChild hvisit _ child).imp fun _ _ hr => hI.item before items hr
    · intro calls result hresult
      have hrest := ih (before ++ [result])
      rw [List.length_append, List.length_singleton] at hrest
      refine hrest.bind fun more results hresults => yields_pure ?_
      rw [List.append_nil]
      refine hI.trans hresult ?_
      simpa using hresults

lemma visitInside : (visitInside visit node at_ value).Yields H fun calls result =>
    I at_.path calls value result := by
  cases value with
  | object members =>
    have hfold := yields_foldlM (f := fun members rule => Plan.visitMembers visit at_ rule.1 rule.2 members)
      (I := fun calls results => I at_.path calls (.object members) (.object results))
      node.memberRules (fun calls results hresults rule _ =>
        (hI.visitMembers hvisit rule [] results).imp fun _ _ hmore => hI.trans hresults hmore)
      [] members (hI.refl _ _)
    exact hfold.map fun _ _ hr => hr
  | array items => exact (hI.visitItems hvisit [] items).map fun _ _ hr => hr
  | _ => exact yields_pure (hI.refl _ _)

lemma visitEach (nodes : List Pointer) : (visitEach visit at_ nodes value seen).Yields H
    fun calls r => I at_.path calls value r.1 :=
  yields_foldlM (f := fun (r : Json × List Pointer) child => visit child at_ r.1 r.2)
    (I := fun calls r => I at_.path calls value r.1) nodes
    (fun _ r hr child _ => (hvisit child at_ r.1 r.2).imp fun _ _ hmore => hI.trans hr hmore)
    [] (value, seen) (hI.refl _ _)

/-- A branch that is not taken leaves its calls, but not its value. -/
lemma tryBranches (branches : List (Matcher × Pointer)) (rejected : List Issue) :
    (plan.tryBranches visit at_ value seen branches rejected).Yields H fun calls result =>
      I at_.path calls value result := by
  induction branches generalizing rejected with
  | nil =>
    refine ⟨fun result hresult => ?_, fun halt hhalt => absurd hhalt (by simp [Plan.tryBranches])⟩
    obtain rfl : value = result := Except.ok.inj hresult
    exact hI.refl _ _
  | cons entry rest ih =>
    obtain ⟨matcher, branch⟩ := entry
    rw [tryBranches_cons]
    split
    · exact ih rejected
    split
    · exact yields_pure (hI.refl _ _)
    · refine (hvisit branch at_ value seen).settle fun issues calls _ htried => ?_
      exact (ih (rejected ++ issues)).imp fun _ _ hrest => hI.discard htried hrest

lemma visitNode (pointer : Pointer) : (plan.visitNode visit (plan.node pointer) at_ value seen).Yields H
    fun calls r => I at_.path calls value r.1 := by
  refine (hI.visitInside hvisit).bind fun inside value₁ hinside => ?_
  refine (hI.visitEach hvisit _).bind fun conjuncts r hconjuncts => ?_
  refine (hI.tryBranches hvisit _ []).bind fun branches value₂ hbranches => ?_
  refine (hI.visitEach hvisit _).bind fun following s hfollowing => ?_
  refine (hI.chain pointer at_ s.1).bind fun chain value₃ hchain => yields_pure ?_
  rw [List.append_nil]
  exact hI.trans hinside (hI.trans hconjuncts (hI.trans hbranches (hI.trans hfollowing hchain)))

end Parts

/-- **Visits.**  The relation holds between a value and what a visit makes of it. -/
lemma visit (hI : plan.Composes H I) (steps : ℕ) (pointer : Pointer) (at_ : Position) (value : Json)
    (seen : List Pointer) : (plan.visit steps pointer at_ value seen).Yields H
      fun calls r => I at_.path calls value r.1 := by
  induction steps generalizing pointer at_ value seen with
  | zero =>
    refine ⟨fun _ hresult => absurd hresult (by simp [Plan.visit, Pass.halt]), fun halt hhalt => ?_⟩
    obtain rfl : Halt.exhausted = halt := Except.error.inj hhalt
    exact hI.budget
  | succ steps ih =>
    simp only [Plan.visit]
    split
    · exact yields_pure (hI.refl _ _)
    · exact hI.visitNode ih pointer

/-- **Runs.**  The relation holds between a value and what a run makes of it. -/
theorem run (hI : plan.Composes H I) (steps : ℕ) (value : Json) :
    (plan.run steps value).Yields H fun calls result => I "" calls value result :=
  (hI.visit steps "" (.root value) value []).map fun _ _ hr => hr

end Composes

end Plan

end SchemaAlgebra
