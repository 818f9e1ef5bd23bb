import Mathlib.Data.List.Forall2
import Mathlib.Order.Lattice
import SchemaAlgebra.Plan.Pass

/-!
# Runs that come to an end

A run of the transform pass has a budget of steps.  Whether the pass itself ends is therefore a
question about the runs of all budgets at once: it ends if, from some budget on, they are one run,
which does not exceed its budget.

* `Pass.Ends f Q` — the runs `f` end, and their result, should there be one, satisfies `Q`.
* `Pass.Ends.bind`, `Pass.Ends.foldlM`, `Pass.Ends.mapM` — the rules by which runs that are made of
  parts end if their parts do.  The claim about a fold carries an invariant on what was folded.
* `Plan.ends_visitInside_object`, `Plan.ends_visitInside_array`, `Plan.ends_tryBranches` — the same
  for the parts of a visit.
-/

namespace SchemaAlgebra

namespace Pass

variable {α β γ : Type}

/-! ## Laws of runs -/

lemma bind_eq (p : Pass α) (next : α → Pass β) : p >>= next = p.andThen next := rfl

lemma andThen_of_error {p : Pass α} {h : Halt} (hp : p.outcome = .error h) (next : α → Pass β) :
    p.andThen next = { calls := p.calls, issues := p.issues, outcome := .error h } := by
  simp [andThen, hp]

lemma andThen_of_ok {p : Pass α} {a : α} (hp : p.outcome = .ok a) (next : α → Pass β) :
    p.andThen next
      = { calls := p.calls ++ (next a).calls
          issues := p.issues ++ (next a).issues
          outcome := (next a).outcome } := by
  simp [andThen, hp]

lemma outcome_bind_of_error {p : Pass α} {h : Halt} (hp : p.outcome = .error h)
    (next : α → Pass β) : (p >>= next).outcome = .error h := by
  rw [bind_eq, andThen_of_error hp]

lemma outcome_bind_of_ok {p : Pass α} {a : α} (hp : p.outcome = .ok a) (next : α → Pass β) :
    (p >>= next).outcome = (next a).outcome := by
  rw [bind_eq, andThen_of_ok hp]

instance : LawfulMonad Pass := by
  refine LawfulMonad.mk' Pass ?_ ?_ ?_
  · rintro _ ⟨calls, issues, outcome⟩
    show andThen _ _ = _
    cases outcome <;> simp [andThen, done]
  · intro _ _ a next
    show andThen (done a) next = next a
    simp [andThen, done]
  · intro _ _ _ p f g
    show andThen (andThen p f) g = andThen p fun a => andThen (f a) g
    cases hp : p.outcome with
    | error h => simp [andThen, hp]
    | ok a => cases hf : (f a).outcome <;> simp [andThen, hp, hf]

/-! ## Ending -/

/-- The run does not exceed its budget. -/
def Finished (p : Pass α) : Prop :=
  p.outcome ≠ .error .exhausted

/-- **The runs end.**  From some budget on they are one run that does not exceed its budget, and its
result, if it has one, satisfies `Q`. -/
def Ends (f : ℕ → Pass α) (Q : α → Prop) : Prop :=
  ∃ p : Pass α, p.Finished ∧ (∀ a, p.outcome = .ok a → Q a) ∧
    ∃ least, ∀ steps, least ≤ steps → f steps = p

lemma ends_const {p : Pass α} {Q : α → Prop} (hp : p.Finished)
    (hQ : ∀ a, p.outcome = .ok a → Q a) : Ends (fun _ => p) Q :=
  ⟨p, hp, hQ, 0, fun _ _ => rfl⟩

/-- Runs end if from some budget on they are runs that do. -/
lemma Ends.of_eq {f g : ℕ → Pass α} {Q : α → Prop} (least : ℕ) (hg : Ends g Q)
    (h : ∀ steps, least ≤ steps → f steps = g steps) : Ends f Q := by
  obtain ⟨p, hp, hQ, least', hleast⟩ := hg
  refine ⟨p, hp, hQ, max least least', fun steps hsteps => ?_⟩
  rw [h steps (le_trans (le_max_left _ _) hsteps),
    hleast steps (le_trans (le_max_right _ _) hsteps)]

lemma ends_done {a : α} {Q : α → Prop} (h : Q a) : Ends (fun _ => done a) Q := by
  refine ends_const (by simp [Finished, done]) fun b hb => ?_
  have hab : a = b := by simpa [done] using hb
  exact hab ▸ h

namespace Ends

variable {f : ℕ → Pass α} {Q : α → Prop} {R : β → Prop}

lemma imp {Q' : α → Prop} (hf : Ends f Q) (h : ∀ a, Q a → Q' a) : Ends f Q' := by
  obtain ⟨p, hp, hQ, hleast⟩ := hf
  exact ⟨p, hp, fun a ha => h a (hQ a ha), hleast⟩

/-- Runs with one step more end, so do the runs. -/
lemma of_succ (h : Ends (fun steps => f (steps + 1)) Q) : Ends f Q := by
  obtain ⟨p, hp, hQ, least, hleast⟩ := h
  refine ⟨p, hp, hQ, least + 1, fun steps hsteps => ?_⟩
  obtain ⟨fewer, rfl⟩ : ∃ fewer, steps = fewer + 1 := ⟨steps - 1, by omega⟩
  exact hleast fewer (by omega)

/-- **Sequences.**  A sequence ends if its first part does and, whatever that leads to, the rest. -/
lemma bind {g : α → ℕ → Pass β} (hf : Ends f Q) (hg : ∀ a, Q a → Ends (g a) R) :
    Ends (fun steps => f steps >>= fun a => g a steps) R := by
  obtain ⟨p, hp, hQ, least, hleast⟩ := hf
  cases hout : p.outcome with
  | error h =>
    refine ⟨{ calls := p.calls, issues := p.issues, outcome := .error h }, ?_, by simp, least,
      fun steps hsteps => ?_⟩
    · simp only [Finished, hout, ne_eq, Except.error.injEq] at hp ⊢
      exact hp
    · show f steps >>= _ = _
      rw [hleast steps hsteps, bind_eq, andThen_of_error hout]
  | ok a =>
    obtain ⟨q, hq, hR, least', hleast'⟩ := hg a (hQ a hout)
    refine ⟨{ calls := p.calls ++ q.calls, issues := p.issues ++ q.issues, outcome := q.outcome },
      hq, hR, max least least', fun steps hsteps => ?_⟩
    show f steps >>= _ = _
    rw [hleast steps (le_trans (le_max_left _ _) hsteps), bind_eq, andThen_of_ok hout,
      hleast' steps (le_trans (le_max_right _ _) hsteps)]

lemma map {g : α → β} (hf : Ends f Q) (h : ∀ a, Q a → R (g a)) :
    Ends (fun steps => g <$> f steps) R := by
  have hbind := hf.bind (g := fun a _ => pure (g a)) fun a ha => ends_done (h a ha)
  simpa only [bind_pure_comp] using hbind

/-- **Folds.**  `I` holds of what was folded and the state it led to. -/
lemma foldlM {step : ℕ → β → α → Pass β} {I : List α → β → Prop} (items : List α) (b : β)
    (hstart : I [] b)
    (hstep : ∀ before a after b, items = before ++ a :: after → I before b →
      Ends (fun steps => step steps b a) (I (before ++ [a]))) :
    Ends (fun steps => items.foldlM (step steps) b) (I items) := by
  suffices h : ∀ rest before b, items = before ++ rest → I before b →
      Ends (fun steps => rest.foldlM (step steps) b) (I items) from h items [] b rfl hstart
  intro rest
  induction rest with
  | nil =>
    intro before b hitems hI
    rw [List.append_nil] at hitems
    exact ends_done (hitems ▸ hI)
  | cons a rest ih =>
    intro before b hitems hI
    simp only [List.foldlM_cons]
    exact (hstep before a rest b hitems hI).bind fun b' hI' =>
      ih (before ++ [a]) b' (by rw [hitems, List.append_assoc]; rfl) hI'

/-- **Item by item.**  `P` relates what was given to the items that are worked on, `Q` to the
results. -/
lemma mapM {step : ℕ → β → Pass γ} {P : α → β → Prop} {Q : α → γ → Prop} {given : List α}
    {items : List β} (h : List.Forall₂ P given items)
    (hstep : ∀ a ∈ given, ∀ b, P a b → Ends (fun steps => step steps b) (Q a)) :
    Ends (fun steps => items.mapM (step steps)) (List.Forall₂ Q given) := by
  induction h with
  | nil =>
    simp only [List.mapM_nil]
    exact ends_done List.Forall₂.nil
  | @cons a b given items hab _ ih =>
    simp only [List.mapM_cons]
    refine (hstep a List.mem_cons_self b hab).bind fun c hc => ?_
    refine (ih fun a' ha' => hstep a' (List.mem_cons_of_mem a ha')).bind fun cs hcs => ?_
    exact ends_done (List.Forall₂.cons hc hcs)

end Ends

end Pass

namespace Plan

open Pass

variable {plan : Plan} {visit : ℕ → Visit} {node : PlanNode} {at_ : Position}

/-! ## Members and items -/

lemma ends_visitChild {key : String} {child : Pointer} {value : Json} {Q : Json → Prop}
    (h : Ends (fun steps => visit steps child (at_.child key value) value []) fun r => Q r.1) :
    Ends (fun steps => visitChild (visit steps) at_ key child value) Q :=
  h.map fun _ hr => hr

/-- The members have the keys they had, and `S` relates each, as it was, to its value. -/
def Related (S : String × Json → Json → Prop) (members results : Entries Json) : Prop :=
  List.Forall₂ (fun member result => result.1 = member.1 ∧ S member result.2) members results

/-- **Members.**  Rules are applied one after another; `S` relates a member, as it was given, to
what the rules applied so far made of its value. -/
lemma ends_visitInside_object {members : Entries Json}
    {S : List ((String → Bool) × Pointer) → String × Json → Json → Prop}
    (hstart : ∀ member ∈ members, S [] member member.2)
    (hskip : ∀ before rule after member current,
      node.memberRules = before ++ rule :: after → member ∈ members → rule.1 member.1 = false →
      S before member current → S (before ++ [rule]) member current)
    (hvisit : ∀ before rule after member current,
      node.memberRules = before ++ rule :: after → member ∈ members → rule.1 member.1 = true →
      S before member current →
      Ends (fun steps => visit steps rule.2 (at_.child member.1 current) current [])
        fun r => S (before ++ [rule]) member r.1) :
    Ends (fun steps => visitInside (visit steps) node at_ (.object members)) fun result =>
      ∃ results, result = .object results ∧ Related (S node.memberRules) members results := by
  refine Ends.map (Q := Related (S node.memberRules) members) ?_ fun results hresults =>
    ⟨results, rfl, hresults⟩
  refine Ends.foldlM (I := fun before current => Related (S before) members current) _ _ ?_ ?_
  · exact List.forall₂_same.2 fun member hmember => ⟨rfl, hstart member hmember⟩
  · rintro before rule after current hrules hcurrent
    refine Ends.mapM hcurrent ?_
    rintro member hmember ⟨key, value⟩ ⟨rfl, hslot⟩
    cases hselects : rule.1 member.1 with
    | false =>
      simp only [hselects, Bool.false_eq_true, if_false]
      exact ends_done ⟨rfl, hskip before rule after member value hrules hmember hselects hslot⟩
    | true =>
      simp only [hselects, if_true]
      refine (ends_visitChild
        (hvisit before rule after member value hrules hmember hselects hslot)).bind fun r hr => ?_
      exact ends_done ⟨rfl, hr⟩

/-- **Items.**  Each item has one node at most. -/
lemma ends_visitInside_array {items : List Json} {S : Json → Json → Prop}
    (hskip : ∀ item ∈ items, ∀ index, node.outline.itemNode? index = none → S item item)
    (hvisit : ∀ item ∈ items, ∀ index child, node.outline.itemNode? index = some child →
      Ends (fun steps => visit steps child (at_.child (Pointer.indexToken index) item) item [])
        fun r => S item r.1) :
    Ends (fun steps => visitInside (visit steps) node at_ (.array items)) fun result =>
      ∃ results, result = .array results ∧ List.Forall₂ S items results := by
  refine Ends.map (Q := List.Forall₂ (fun entry => S entry.1) items.zipIdx) ?_
    fun results hresults => ⟨results, rfl, ?_⟩
  · refine Ends.mapM (List.forall₂_same.2 fun entry _ => rfl) ?_
    rintro ⟨item, index⟩ hentry _ rfl
    have hitem : item ∈ items := List.fst_mem_of_mem_zipIdx hentry
    cases hnode : node.outline.itemNode? index with
    | none =>
      simp only [hnode]
      exact ends_done (hskip item hitem index hnode)
    | some child =>
      simp only [hnode]
      exact ends_visitChild (hvisit item hitem index child hnode)
  · have hmap := List.forall₂_map_left_iff (R := S) (f := Prod.fst) |>.2 hresults
    rwa [List.zipIdx_map_fst] at hmap

/-! ## Branches -/

/-- **Branches.**  Each branch that is tried gets the value that there was before all of them. -/
lemma ends_tryBranches {value : Json} {seen : List Pointer} {Q : Json → Prop} (hnone : Q value)
    (branches : List (Matcher × Pointer)) (rejected : List Issue)
    (hvisit : ∀ branch ∈ branches, Ends (fun steps => visit steps branch.2 at_ value seen)
      fun r => Q r.1) :
    Ends (fun steps => plan.tryBranches (visit steps) at_ value seen branches rejected) Q := by
  induction branches generalizing rejected with
  | nil =>
    refine ends_const (by simp [Finished]) fun a ha => ?_
    have hva : value = a := by simpa [tryBranches] using ha
    exact hva ▸ hnone
  | cons entry rest ih =>
    obtain ⟨matcher, branch⟩ := entry
    have hrest := fun rejected => ih rejected fun b hb => hvisit b (List.mem_cons_of_mem _ hb)
    simp only [tryBranches]
    cases hmatch : matcher.accepts at_.origin with
    | false => simpa using hrest rejected
    | true =>
      cases hactive : (plan.node branch).active with
      | false => simpa using ends_done hnone
      | true =>
        simp only [Bool.not_true, Bool.false_eq_true, if_false]
        -- a branch starts from the value given, so what earlier branches did is of no account
        obtain ⟨tried, htried, hQ, least, hleast⟩ := hvisit (matcher, branch) List.mem_cons_self
        cases hout : tried.outcome with
        | error h =>
          refine Ends.of_eq least
            (ends_const (p := ⟨tried.calls, tried.issues, .error h⟩) ?_ (by simp))
            fun steps hsteps => by simp only [hleast steps hsteps, hout]
          simp only [Finished, hout, ne_eq, Except.error.injEq] at htried ⊢
          exact htried
        | ok r =>
          cases hissues : tried.issues.isEmpty with
          | true =>
            refine Ends.of_eq least
              (ends_const (p := { calls := tried.calls, outcome := .ok r.1 })
                (by simp [Finished]) fun a ha => ?_)
              fun steps hsteps => by simp only [hleast steps hsteps, hout, hissues, if_true]
            have hra : r.1 = a := by simpa using ha
            exact hra ▸ hQ r hout
          | false =>
            have hrecord : Ends (fun _ => Pass.record tried.calls []) fun _ => True :=
              ends_const (by simp [Finished, Pass.record]) fun _ _ => trivial
            exact Ends.of_eq least
              (hrecord.bind fun _ _ => hrest (rejected ++ tried.issues))
              fun steps hsteps => by
                simp only [hleast steps hsteps, hout, hissues, Bool.false_eq_true, if_false]

end Plan

end SchemaAlgebra
