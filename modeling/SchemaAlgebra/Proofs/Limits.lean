import SchemaAlgebra.Proofs.Activity

/-!
# Limits that are not exceeded

A visit of the transform pass has a budget of steps, and a validation has a limit on how many visits
stand inside one another.  Neither takes part in what is found: a run that stays within its budget is
the same run within every greater one (`Plan.run_of_le`), and so is a validation
(`Validator.validateWithin_of_le`).  What `Validator.validate` comes to is therefore what a validation
without a limit comes to; only a validation that it gives up may come to more.

* `Plan.mirrors_visit_of_le` — a visit with more steps does what it did with fewer, by induction on the
  fewer.
-/

namespace SchemaAlgebra

namespace Plan

open Pass

section
variable {plan : Plan} {visit visit' : Visit} {node : PlanNode} {at_ : Position} {value : Json}
  {seen : List Pointer}

lemma ofOneValue_eq : OfOneValue Eq where
  value := congrArg Prod.fst
  fresh := fun _ => rfl

/-- Branches are tried alike. -/
lemma mirrors_tryBranches_self (hvisit : ∀ pointer, MirrorsAt Eq visit visit' pointer)
    (branches : List (Matcher × Pointer)) (rejected : List Issue) :
    Mirrors Eq (plan.tryBranches visit at_ value seen branches rejected)
      (plan.tryBranches visit' at_ value seen branches rejected) := by
  induction branches generalizing rejected with
  | nil => exact mirrors_refl _
  | cons entry rest ih =>
    obtain ⟨matcher, branch⟩ := entry
    rw [tryBranches_cons, tryBranches_cons]
    split
    · exact ih rejected
    split
    · exact mirrors_refl _
    · exact (hvisit branch at_ value seen seen rfl).settle (fun _ _ hr => congrArg Prod.fst hr)
        fun _ => ih (rejected ++ _)

/-- **One visit**, stage by stage. -/
lemma mirrors_visitNode_self (hvisit : ∀ pointer, MirrorsAt Eq visit visit' pointer) :
    Mirrors Eq (plan.visitNode visit node at_ value seen) (plan.visitNode visit' node at_ value seen) := by
  refine (mirrors_visitInside ofOneValue_eq rfl rfl fun child _ => hvisit child).bind ?_
  rintro value _ rfl
  refine (mirrors_visitEach ofOneValue_eq (fun child _ => hvisit child) rfl).bind ?_
  rintro ⟨value, seen⟩ _ rfl
  refine (mirrors_tryBranches_self hvisit _ _).bind ?_
  rintro value _ rfl
  refine (mirrors_visitEach ofOneValue_eq (fun child _ => hvisit child) rfl).bind ?_
  rintro ⟨value, seen⟩ _ rfl
  exact mirrors_refl _

end

/-- **More steps make no difference** to a visit that does not exceed its budget. -/
lemma mirrors_visit_of_le (plan : Plan) (steps : ℕ) {more : ℕ} (hmore : steps ≤ more)
    (pointer : Pointer) : MirrorsAt Eq (plan.visit more) (plan.visit steps) pointer := by
  induction steps generalizing more pointer with
  | zero => exact fun at_ value seen seen' _ hfinished => absurd rfl hfinished
  | succ steps ih =>
    obtain ⟨more, rfl⟩ : ∃ fewer, more = fewer + 1 := ⟨more - 1, by omega⟩
    rintro at_ value seen _ heq
    obtain rfl := (Prod.mk.inj heq).2
    simp only [visit]
    split
    · exact mirrors_refl _
    · exact mirrors_visitNode_self fun child => ih (Nat.le_of_succ_le_succ hmore) child

/-- **A run that stays within its budget** is the run within every greater one. -/
theorem run_of_le {plan : Plan} {steps more : ℕ} {value : Json}
    (hfinished : (plan.run steps value).Finished) (hmore : steps ≤ more) :
    plan.run more value = plan.run steps value := by
  have hrun : Mirrors Eq (plan.run more value) (plan.run steps value) :=
    (plan.mirrors_visit_of_le steps hmore "" (.root value) value [] [] rfl).map fun _ _ =>
      congrArg Prod.fst
  exact hrun.eq hfinished

end Plan

namespace Validator

/-- **A validation that comes to a result within a limit** comes to it within every greater limit. -/
theorem validateWithin_of_le {validator : Validator} {limit more : ℕ} {value : Json}
    (hresult : validator.validateWithin limit value ≠ .error .unfinished) (hmore : limit ≤ more) :
    validator.validateWithin more value = validator.validateWithin limit value := by
  have hfinished : (validator.plan.run limit (validator.prepare value)).Finished := by
    intro hexhausted
    exact hresult (by rw [validateWithin, hexhausted]; rfl)
  rw [validateWithin, Plan.run_of_le hfinished hmore]
  rfl

end Validator

end SchemaAlgebra
