import SchemaAlgebra.Proofs.Trace

/-!
# Branches that are not taken

Of the branches of a node those that accept the value are tried in turn, each on the same value and with
the same nodes seen, until one is taken (`Plan.takes`).  `Plan.chooseBranch` is the search that also says
which one that is; but for this it is the search of the pass (`Plan.tryBranches_eq`).

If no branch that is tried fails (`Plan.NoneFails`), the search comes to an end:

* `Plan.chooseBranch_passed` — a branch that is not taken leaves its issues for the case that none is.
* `Plan.chooseBranch_some` — the first that is taken leads to what it leads to alone, and nothing is
  reported.
* `Plan.chooseBranch_none` — if none is taken, the value stays, and the issues of all are reported.

**`Plan.discarded_branches_leave_nothing`** has them together, for any node of any plan.  The calls of all
branches that were tried have been made, whatever becomes of them.
-/

namespace SchemaAlgebra

lemma Pass.map_eq {α β : Type} (f : α → β) (p : Pass α) :
    f <$> p = { calls := p.calls, issues := p.issues, outcome := p.outcome.map f } := by
  rw [← bind_pure_comp, bind_eq]
  cases h : p.outcome with
  | error halt => exact andThen_of_error h _
  | ok a =>
    rw [andThen_of_ok h]
    simp [pure, done, Except.map]

namespace Plan

variable {plan : Plan} {visit : Visit} {at_ : Position} {value : Json} {seen : List Pointer}
  {branch : Matcher × Pointer} {branches rest : List (Matcher × Pointer)} {rejected : List Issue}

/-! ## The branch that is taken -/

/-- Whether a branch is taken when its turn comes: it accepts the value as it was before the run, and is
not active or reports nothing. -/
def takes (plan : Plan) (visit : Visit) (at_ : Position) (value : Json) (seen : List Pointer)
    (branch : Matcher × Pointer) : Bool :=
  branch.1.accepts at_.origin
    && (!(plan.node branch.2).active || (visit branch.2 at_ value seen).issues.isEmpty)

/-- What a branch that is taken leads to: the result of its visit, or the value itself if it is not
active. -/
def IsResult (plan : Plan) (visit : Visit) (at_ : Position) (value : Json) (seen : List Pointer)
    (branch : Matcher × Pointer) (data : Json) : Prop :=
  if (plan.node branch.2).active then
    ∃ after, (visit branch.2 at_ value seen).outcome = .ok (data, after)
  else data = value

/-- The issues that the accepting branches report, each on its own. -/
def refusals (visit : Visit) (at_ : Position) (value : Json) (seen : List Pointer)
    (branches : List (Matcher × Pointer)) : List Issue :=
  (branches.filter fun branch => branch.1.accepts at_.origin).flatMap fun branch =>
    (visit branch.2 at_ value seen).issues

/-- Tries branches in turn, as the pass does, and says which of the numbered branches is taken. -/
def chooseBranch (plan : Plan) (visit : Visit) (at_ : Position) (value : Json) (seen : List Pointer) :
    List ((Matcher × Pointer) × ℕ) → List Issue → Pass (Option ℕ × Json)
  | [], rejected => { issues := rejected, outcome := .ok (none, value) }
  | ((matcher, branch), number) :: rest, rejected =>
    if !matcher.accepts at_.origin then plan.chooseBranch visit at_ value seen rest rejected
    else if !(plan.node branch).active then .done (some number, value)
    else
      let tried := visit branch at_ value seen
      match tried.outcome with
      | .error h => { calls := tried.calls, issues := tried.issues, outcome := .error h }
      | .ok (result, _) =>
        if tried.issues.isEmpty then { calls := tried.calls, outcome := .ok (some number, result) }
        else do
          Pass.record tried.calls []
          plan.chooseBranch visit at_ value seen rest (rejected ++ tried.issues)

/-- The search of the pass is this one, without the number. -/
lemma tryBranches_eq (branches : List (Matcher × Pointer)) (first : ℕ) (rejected : List Issue) :
    plan.tryBranches visit at_ value seen branches rejected
      = Prod.snd <$> plan.chooseBranch visit at_ value seen (branches.zipIdx first) rejected := by
  induction branches generalizing first rejected with
  | nil => rw [List.zipIdx_nil, tryBranches, chooseBranch, Pass.map_eq]; rfl
  | cons entry rest ih =>
    obtain ⟨matcher, branch⟩ := entry
    rw [List.zipIdx_cons, tryBranches, chooseBranch]
    split
    · exact ih (first + 1) rejected
    split
    · rfl
    generalize visit branch at_ value seen = tried
    cases h : tried.outcome with
    | error halt => simp only [h, Pass.map_eq, Except.map]
    | ok result =>
      simp only [h]
      split
      · rw [Pass.map_eq]; rfl
      · rw [map_bind]
        exact congrArg (Pass.record _ _ >>= ·) (funext fun _ => ih (first + 1) _)

/-- No branch that is tried fails: each one that accepts the value and is active leads to a result, unless
one before it is taken. -/
def NoneFails (plan : Plan) (visit : Visit) (at_ : Position) (value : Json) (seen : List Pointer)
    (branches : List (Matcher × Pointer)) : Prop :=
  ∀ (number : ℕ) (h : number < branches.length),
    (∀ earlier ∈ branches.take number, plan.takes visit at_ value seen earlier = false) →
      branches[number].1.accepts at_.origin = true → (plan.node branches[number].2).active = true →
      (visit branches[number].2 at_ value seen).outcome.isOk = true

instance (plan : Plan) (visit : Visit) (at_ : Position) (value : Json) (seen : List Pointer)
    (branches : List (Matcher × Pointer)) : Decidable (plan.NoneFails visit at_ value seen branches) :=
  inferInstanceAs (Decidable (∀ (number : ℕ) (_ : number < branches.length), _))

lemma NoneFails.head (h : plan.NoneFails visit at_ value seen (branch :: rest))
    (haccepts : branch.1.accepts at_.origin = true) (hactive : (plan.node branch.2).active = true) :
    ∃ result, (visit branch.2 at_ value seen).outcome = .ok result := by
  have hok := h 0 (Nat.zero_lt_succ _) (by simp) haccepts hactive
  cases hresult : (visit branch.2 at_ value seen).outcome with
  | ok result => exact ⟨result, rfl⟩
  | error halt =>
    rw [List.getElem_cons_zero, hresult] at hok
    exact Bool.noConfusion hok

lemma NoneFails.tail (h : plan.NoneFails visit at_ value seen (branch :: rest))
    (hpassed : plan.takes visit at_ value seen branch = false) :
    plan.NoneFails visit at_ value seen rest := by
  intro number hnumber hearlier
  refine h (number + 1) (Nat.succ_lt_succ hnumber) fun earlier hmem => ?_
  rcases List.mem_cons.1 hmem with rfl | hmem
  · exact hpassed
  · exact hearlier earlier hmem

/-! ## One branch after another -/

lemma refusals_cons (branch : Matcher × Pointer) (rest : List (Matcher × Pointer)) :
    refusals visit at_ value seen (branch :: rest)
      = refusals visit at_ value seen [branch] ++ refusals visit at_ value seen rest := by
  simp only [refusals, List.filter_cons, List.filter_nil]
  split <;> simp

/-- **A branch that is not taken** leaves its calls, and sets its issues aside. -/
lemma chooseBranch_passed (h : plan.NoneFails visit at_ value seen (branch :: rest))
    (hpassed : plan.takes visit at_ value seen branch = false) (number : ℕ)
    (others : List ((Matcher × Pointer) × ℕ)) (rejected : List Issue) :
    ∃ calls, plan.chooseBranch visit at_ value seen ((branch, number) :: others) rejected
      = Pass.record calls [] >>= fun _ => plan.chooseBranch visit at_ value seen others
        (rejected ++ refusals visit at_ value seen [branch]) := by
  obtain ⟨matcher, node⟩ := branch
  cases haccepts : matcher.accepts at_.origin with
  | false =>
    refine ⟨[], ?_⟩
    have hnone : refusals visit at_ value seen [(matcher, node)] = [] := by simp [refusals, haccepts]
    rw [chooseBranch, haccepts, hnone, List.append_nil, Bool.not_false, if_pos rfl]
    exact (pure_bind () fun _ => plan.chooseBranch visit at_ value seen others rejected).symm
  | true =>
    have hrefused : (plan.node node).active = true ∧ (visit node at_ value seen).issues.isEmpty = false := by
      simpa [takes, haccepts] using hpassed
    obtain ⟨result, hresult⟩ := h.head haccepts hrefused.1
    refine ⟨(visit node at_ value seen).calls, ?_⟩
    have hissues : refusals visit at_ value seen [(matcher, node)]
        = (visit node at_ value seen).issues := by simp [refusals, haccepts]
    rw [chooseBranch, haccepts, hrefused.1, hissues]
    simp only [Bool.not_true, Bool.false_eq_true, if_false, hresult, hrefused.2]

/-- **A branch that is taken** leads to the same, whatever has been set aside before it and whatever
comes after it. -/
lemma chooseBranch_taken (h : plan.NoneFails visit at_ value seen (branch :: rest))
    (htaken : plan.takes visit at_ value seen branch = true) :
    ∃ data, plan.IsResult visit at_ value seen branch data ∧ ∀ number others rejected,
      (plan.chooseBranch visit at_ value seen ((branch, number) :: others) rejected).outcome
          = .ok (some number, data)
        ∧ (plan.chooseBranch visit at_ value seen ((branch, number) :: others) rejected).issues = [] := by
  obtain ⟨matcher, node⟩ := branch
  obtain ⟨haccepts, hclean⟩ := Bool.and_eq_true_iff.1 htaken
  cases hactive : (plan.node node).active with
  | false =>
    refine ⟨value, by simp [IsResult, hactive], fun number others rejected => ?_⟩
    rw [chooseBranch, haccepts, hactive]
    exact ⟨rfl, rfl⟩
  | true =>
    obtain ⟨⟨data, after⟩, hresult⟩ := h.head haccepts hactive
    refine ⟨data, by simp [IsResult, hactive, hresult], fun number others rejected => ?_⟩
    have hempty : (visit node at_ value seen).issues.isEmpty = true := by simpa [hactive] using hclean
    rw [chooseBranch, haccepts, hactive]
    simp only [Bool.not_true, Bool.false_eq_true, if_false, hresult, hempty, if_true, and_self]

/-! ## The whole search -/

/-- **If no branch is taken,** the value stays, and all issues that were set aside are reported. -/
lemma chooseBranch_none (h : plan.NoneFails visit at_ value seen branches)
    (hnone : ∀ branch ∈ branches, plan.takes visit at_ value seen branch = false) (first : ℕ)
    (rejected : List Issue) :
    (plan.chooseBranch visit at_ value seen (branches.zipIdx first) rejected).outcome = .ok (none, value)
      ∧ (plan.chooseBranch visit at_ value seen (branches.zipIdx first) rejected).issues
        = rejected ++ refusals visit at_ value seen branches := by
  induction branches generalizing first rejected with
  | nil => exact ⟨rfl, (List.append_nil rejected).symm⟩
  | cons branch rest ih =>
    have hpassed := hnone branch List.mem_cons_self
    obtain ⟨calls, hsearch⟩ := chooseBranch_passed h hpassed first (rest.zipIdx (first + 1)) rejected
    obtain ⟨houtcome, hissues⟩ := ih (h.tail hpassed)
      (fun other hother => hnone other (List.mem_cons_of_mem _ hother)) (first + 1)
      (rejected ++ refusals visit at_ value seen [branch])
    rw [List.zipIdx_cons, hsearch, refusals_cons branch rest, ← List.append_assoc]
    exact ⟨houtcome, hissues⟩

/-- **The first branch that is taken** leads to what it leads to alone, and no issue is reported. -/
lemma chooseBranch_some (h : plan.NoneFails visit at_ value seen branches) {number : ℕ}
    (hfirst : branches.findIdx? (plan.takes visit at_ value seen) = some number) (first : ℕ)
    (rejected : List Issue) :
    ∃ branch data, branches[number]? = some branch ∧ plan.IsResult visit at_ value seen branch data
      ∧ (plan.chooseBranch visit at_ value seen (branches.zipIdx first) rejected).outcome
        = .ok (some (first + number), data)
      ∧ (plan.chooseBranch visit at_ value seen (branches.zipIdx first) rejected).issues = []
      ∧ (plan.tryBranches visit at_ value seen [branch] []).outcome = .ok data := by
  induction branches generalizing number first rejected with
  | nil => simp at hfirst
  | cons branch rest ih =>
    rw [List.findIdx?_cons] at hfirst
    split at hfirst
    · next htaken =>
      obtain rfl := Option.some.inj hfirst
      obtain ⟨data, hresult, hdata⟩ := chooseBranch_taken h htaken
      refine ⟨branch, data, rfl, hresult, (hdata first _ rejected).1, (hdata first _ rejected).2, ?_⟩
      rw [tryBranches_eq [branch] 0 [], Pass.map_eq, List.zipIdx_cons, (hdata 0 _ []).1]
      rfl
    · next hpassed =>
      -- what is set aside on the way is not reported, so the rest may be searched with more of it
      have hpassed := Bool.eq_false_iff.2 hpassed
      obtain ⟨before, hbefore, rfl⟩ := Option.map_eq_some_iff.1 hfirst
      obtain ⟨calls, hsearch⟩ := chooseBranch_passed h hpassed first (rest.zipIdx (first + 1)) rejected
      obtain ⟨taken, data, htaken, hresult, houtcome, hissues, halone⟩ :=
        ih (h.tail hpassed) hbefore (first + 1) (rejected ++ refusals visit at_ value seen [branch])
      refine ⟨taken, data, htaken, hresult, ?_⟩
      rw [List.zipIdx_cons, hsearch, Nat.add_comm before, ← Nat.add_assoc]
      exact ⟨houtcome, hissues, halone⟩

/-- **Discarded branches leave nothing.**  If no branch that is tried fails, the search leads to data.
The branch that is taken is the first that accepts the value and is not active or reports nothing.  Then
the data are the result of that branch, to which it would lead alone as well, and no issue is reported.
If none is taken, the value stays, and what is reported are the issues of all branches that accept the
value, in order. -/
theorem discarded_branches_leave_nothing (plan : Plan) (steps : ℕ) (node : PlanNode) (at_ : Position)
    (value : Json) (seen : List Pointer)
    (hfine : plan.NoneFails (plan.visit steps) at_ value seen node.branches) :
    ∃ choice data,
      (plan.chooseBranch (plan.visit steps) at_ value seen node.branches.zipIdx []).outcome
          = .ok (choice, data)
        ∧ (plan.tryBranches (plan.visit steps) at_ value seen node.branches []).outcome = .ok data
        ∧ choice = node.branches.findIdx? (plan.takes (plan.visit steps) at_ value seen)
        ∧ (∀ number, choice = some number → ∃ branch, node.branches[number]? = some branch
          ∧ plan.IsResult (plan.visit steps) at_ value seen branch data
          ∧ (plan.tryBranches (plan.visit steps) at_ value seen [branch] []).outcome = .ok data
          ∧ (plan.tryBranches (plan.visit steps) at_ value seen node.branches []).issues = [])
        ∧ (choice = none → data = value
          ∧ (plan.tryBranches (plan.visit steps) at_ value seen node.branches []).issues
            = refusals (plan.visit steps) at_ value seen node.branches) := by
  rw [tryBranches_eq node.branches 0 [], Pass.map_eq]
  cases hchoice : node.branches.findIdx? (plan.takes (plan.visit steps) at_ value seen) with
  | none =>
    obtain ⟨houtcome, hissues⟩ :=
      chooseBranch_none hfine (List.findIdx?_eq_none_iff.1 hchoice) 0 []
    refine ⟨none, value, houtcome, ?_, rfl, fun _ habsurd => absurd habsurd (by simp),
      fun _ => ⟨rfl, hissues⟩⟩
    rw [houtcome]
    rfl
  | some number =>
    obtain ⟨branch, data, hbranch, hresult, houtcome, hissues, halone⟩ :=
      chooseBranch_some hfine hchoice 0 []
    rw [Nat.zero_add] at houtcome
    refine ⟨some number, data, houtcome, ?_, rfl, fun other hother => ?_,
      fun habsurd => absurd habsurd (by simp)⟩
    · rw [houtcome]
      rfl
    · obtain rfl := Option.some.inj hother
      exact ⟨branch, hbranch, hresult, halone, hissues⟩

/-- A choice of a number and three kinds of texts, of which each has a transform. -/
def pickySchema : Fragment where
  keywords := [("anyOf", .array [
    .object [("transform", .array [.string "fail"]), ("type", .string "number")],
    .object [("transform", .array [.string "complain"]), ("type", .string "string")],
    .object [("transform", .array [.string "replace"]), ("type", .string "string")],
    .object [("transform", .array [.string "fail"]), ("type", .string "string")]])]

/-- Options with the transforms of the schema. -/
def pickyOptions : Options where
  transforms := Table.ofPairs [("complain", fun context value =>
      { issues := [⟨context.transformation, "not like this", none⟩], outcome := .ok value }),
    ("fail", Transform.ofFunction fun _ => .error (.failed "no way")),
    ("replace", Transform.ofFunction fun _ => .ok (.string "b"))]

/-- Of four branches the first does not accept the text, the second complains, and the third is taken, so
it does not matter that the fourth would fail. -/
theorem pickySchema_takes_third : ∃ plan,
    compile (Matcher.build {} [] {}) pickySchema pickyOptions = .ok plan
      ∧ plan.NoneFails (plan.visit 8) (.root (.string "a")) (.string "a") [""] (plan.node "").branches
      ∧ (plan.chooseBranch (plan.visit 8) (.root (.string "a")) (.string "a") [""]
        (plan.node "").branches.zipIdx []).outcome = .ok (some 2, .string "b")
      ∧ (plan.tryBranches (plan.visit 8) (.root (.string "a")) (.string "a") [""]
        (plan.node "").branches []).issues = [] := by
  have hfacts : (match compile (Matcher.build {} [] {}) pickySchema pickyOptions with
      | .ok plan => decide (
          plan.NoneFails (plan.visit 8) (.root (.string "a")) (.string "a") [""] (plan.node "").branches
            ∧ (plan.node "").branches.findIdx?
              (plan.takes (plan.visit 8) (.root (.string "a")) (.string "a") [""]) = some 2
            ∧ (plan.tryBranches (plan.visit 8) (.root (.string "a")) (.string "a") [""]
              (plan.node "").branches []).outcome = .ok (.string "b"))
      | .error _ => false) = true := by
    decide +kernel
  split at hfacts
  · rename_i plan h
    obtain ⟨hfine, hindex, hresult⟩ := of_decide_eq_true hfacts
    obtain ⟨choice, data, hchoice, hdata, hfirst, hsome, -⟩ :=
      discarded_branches_leave_nothing plan 8 (plan.node "") (.root (.string "a")) (.string "a") [""] hfine
    obtain rfl := hfirst.trans hindex
    obtain rfl : data = .string "b" := Except.ok.inj (hdata.symm.trans hresult)
    obtain ⟨-, -, -, -, hissues⟩ := hsome 2 rfl
    exact ⟨plan, h, hfine, hchoice, hissues⟩
  · simp at hfacts

end Plan

end SchemaAlgebra
