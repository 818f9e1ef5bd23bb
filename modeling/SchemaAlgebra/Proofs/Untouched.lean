import SchemaAlgebra.Proofs.Compilation
import SchemaAlgebra.Proofs.Effects
import SchemaAlgebra.Proofs.Locations

/-!
# What a run leaves as it is

A run takes a value apart, hands the parts on to nodes, and puts it together again.  What it changes by
that is what its transforms change: a place at which, above which and beneath which none is called holds
what it held, and one at which and above which none is called is still an object with the same keys or
an array of the same length.

* `Plan.Framed` — one value is another as far as calls allow.
* `Plan.composes_framed` — a value is framed by the calls of any part of a run.
* `Plan.run_leaves_untouched` — what a run leaves as it is.

Places are told apart by their tokens, as one place has several spellings.
-/

namespace SchemaAlgebra

/-! ## Framed values -/

/-- The other value is an object with the same keys, an array of the same length, or the same. -/
def Json.SameMake : Json → Json → Prop
  | .object members, .object others => Entries.keys others = Entries.keys members
  | .array items, .array others => others.length = items.length
  | value, other => other = value

@[simp] lemma Json.sameMake_refl (value : Json) : value.SameMake value := by
  cases value <;> simp [SameMake]

lemma Json.SameMake.trans {a b c : Json} (hab : a.SameMake b) (hbc : b.SameMake c) :
    a.SameMake c := by
  cases a <;> cases b <;> cases c <;> simp_all [SameMake]

/-- Replacing the value in one slot changes only what stands under its key, if that. -/
lemma Entries.lookup_replace {α : Type} (before after : Entries α) (key token : String) (x y : α) :
    Entries.lookup token (before ++ (key, x) :: after) = Entries.lookup token (before ++ (key, y) :: after)
      ∨ token = key ∧ Entries.lookup token (before ++ (key, x) :: after) = some x
        ∧ Entries.lookup token (before ++ (key, y) :: after) = some y := by
  induction before with
  | nil =>
    by_cases hkey : key = token
    · subst hkey
      exact Or.inr ⟨rfl, Entries.lookup_cons_self .., Entries.lookup_cons_self ..⟩
    · refine Or.inl ?_
      rw [List.nil_append, List.nil_append, Entries.lookup_cons_of_ne hkey,
        Entries.lookup_cons_of_ne hkey]
  | cons entry before ih =>
    obtain ⟨name, value⟩ := entry
    by_cases hname : name = token
    · subst hname
      exact Or.inl (by rw [List.cons_append, List.cons_append, Entries.lookup_cons_self,
        Entries.lookup_cons_self])
    · rw [List.cons_append, List.cons_append, Entries.lookup_cons_of_ne hname,
        Entries.lookup_cons_of_ne hname]
      exact ih

namespace Plan

variable {calls more : List Call} {path : List String} {x y z : Json}

/-- Whether a call is made at a place. -/
def CalledAt (calls : List Call) (path : List String) : Prop :=
  ∃ call ∈ calls, Pointer.tokens? call.instancePath = some path

lemma CalledAt.mono (h : CalledAt calls path) (hcalls : calls ⊆ more) : CalledAt more path := by
  obtain ⟨call, hcall, hpath⟩ := h
  exact ⟨call, hcalls hcall, hpath⟩

/-- **Framed values.**  At a place, one value is another as far as calls allow: beneath a call nothing is
known, above one the make is the same, and elsewhere everything is. -/
def Framed (calls : List Call) (path : List String) (x y : Json) : Prop :=
  ∀ way part, x.walk? way = some part →
    (∀ before, before <+: way → ¬CalledAt calls (path ++ before)) →
      ∃ other, y.walk? way = some other ∧ part.SameMake other
        ∧ ((∀ below, ¬CalledAt calls (path ++ way ++ below)) → other = part)

lemma framed_refl : Framed calls path x x :=
  fun _ part hpart _ => ⟨part, hpart, part.sameMake_refl, fun _ => rfl⟩

/-- Where a call is made, nothing is known. -/
lemma framed_of_calledAt (h : CalledAt calls path) : Framed calls path x y := by
  intro way part _ hcalls
  have hhere := hcalls [] List.nil_prefix
  rw [List.append_nil] at hhere
  exact absurd h hhere

lemma Framed.mono (h : Framed calls path x y) (hcalls : calls ⊆ more) : Framed more path x y := by
  intro way part hpart hmore
  obtain ⟨other, hother, hmake, hsame⟩ :=
    h way part hpart fun before hbefore hcalled => hmore before hbefore (hcalled.mono hcalls)
  exact ⟨other, hother, hmake, fun hbelow => hsame fun below hcalled =>
    hbelow below (hcalled.mono hcalls)⟩

/-- **Stages.**  What is framed by one stage and then by another is framed by the calls of both. -/
lemma Framed.trans (hxy : Framed calls path x y) (hyz : Framed more path y z) :
    Framed (calls ++ more) path x z := by
  have hfirst : calls ⊆ calls ++ more := List.subset_append_left _ _
  have hsecond : more ⊆ calls ++ more := List.subset_append_right _ _
  intro way part hpart hcalls
  obtain ⟨middle, hmiddle, hmake, hsame⟩ :=
    hxy way part hpart fun before hbefore hcalled => hcalls before hbefore (hcalled.mono hfirst)
  obtain ⟨other, hother, hmake', hsame'⟩ :=
    hyz way middle hmiddle fun before hbefore hcalled => hcalls before hbefore (hcalled.mono hsecond)
  refine ⟨other, hother, hmake.trans hmake', fun hbelow => ?_⟩
  exact (hsame' fun below hcalled => hbelow below (hcalled.mono hsecond)).trans
    (hsame fun below hcalled => hbelow below (hcalled.mono hfirst))

/-- Where no call is made at or beneath a place, the value there is the same. -/
lemma Framed.eq (h : Framed calls path x y) (hcalls : ∀ below, ¬CalledAt calls (path ++ below)) :
    y = x := by
  obtain ⟨other, hother, -, hsame⟩ := h [] x rfl fun before _ => hcalls before
  have hyo : y = other := Option.some.inj hother
  exact hyo.trans (hsame fun below => by simpa using hcalls below)

/-- Beneath a token, what is framed by parts is framed as the part is. -/
lemma Framed.descend {token : String} {way : List String} {part : Json}
    (h : Framed calls (path ++ [token]) x y) (hpart : x.walk? way = some part)
    (hcalls : ∀ before, before <+: token :: way → ¬CalledAt calls (path ++ before)) :
    ∃ other, y.walk? way = some other ∧ part.SameMake other
      ∧ ((∀ below, ¬CalledAt calls (path ++ token :: way ++ below)) → other = part) := by
  obtain ⟨other, hother, hmake, hsame⟩ := h way part hpart fun before hbefore => by
    simpa using hcalls (token :: before) (List.prefix_cons_inj token |>.2 hbefore)
  exact ⟨other, hother, hmake, fun hbelow => hsame fun below => by simpa using hbelow below⟩

/-- **Members.**  An object is framed if one of its members is. -/
lemma Framed.member {key : String} (before after : Entries Json)
    (h : Framed calls (path ++ [key]) x y) : Framed calls path
      (.object (before ++ (key, x) :: after)) (.object (before ++ (key, y) :: after)) := by
  intro way part hpart hcalls
  cases way with
  | nil =>
    obtain rfl : Json.object (before ++ (key, x) :: after) = part := Option.some.inj hpart
    refine ⟨_, rfl, by simp [Json.SameMake, Entries.keys], fun hbelow => ?_⟩
    rw [h.eq fun below => by simpa using hbelow (key :: below)]
  | cons token way =>
    rw [Json.walk?_cons] at hpart ⊢
    obtain ⟨current, hcurrent, hpart⟩ := Option.bind_eq_some_iff.1 hpart
    rcases Entries.lookup_replace before after key token x y with hsame | ⟨rfl, hx, hy⟩
    · have hstep : Json.step? Pointer.strictIndex? (.object (before ++ (key, y) :: after)) token
          = some current := hsame.symm.trans hcurrent
      rw [hstep]
      exact framed_refl.descend hpart hcalls
    · have hstep : Json.step? Pointer.strictIndex? (.object (before ++ (token, y) :: after)) token
          = some y := hy
      obtain rfl : x = current := Option.some.inj (hx.symm.trans hcurrent)
      rw [hstep]
      exact h.descend hpart hcalls

/-- **Items.**  An array is framed if one of its items is. -/
lemma Framed.item (before after : List Json)
    (h : Framed calls (path ++ [Pointer.indexToken before.length]) x y) :
    Framed calls path (.array (before ++ x :: after)) (.array (before ++ y :: after)) := by
  intro way part hpart hcalls
  cases way with
  | nil =>
    obtain rfl : Json.array (before ++ x :: after) = part := Option.some.inj hpart
    refine ⟨_, rfl, by simp [Json.SameMake], fun hbelow => ?_⟩
    rw [h.eq fun below => by simpa using hbelow (Pointer.indexToken before.length :: below)]
  | cons token way =>
    rw [Json.walk?_cons] at hpart
    obtain ⟨current, hstep, hbelow⟩ := Option.bind_eq_some_iff.1 hpart
    obtain ⟨index, hindex, hcurrent⟩ := Option.bind_eq_some_iff.1 hstep
    obtain rfl := Pointer.strictIndex?_eq_some.1 hindex
    by_cases hslot : index = before.length
    · subst hslot
      obtain rfl : x = current := by simpa using hcurrent
      have hnew : (before ++ y :: after)[before.length]? = some y := by simp
      rw [Json.walk?_array hnew]
      exact h.descend hbelow hcalls
    · have hother : (before ++ y :: after)[index]? = some current := by
        rw [← hcurrent]
        rcases Nat.lt_or_gt_of_ne hslot with hlt | hgt
        · rw [List.getElem?_append_left hlt, List.getElem?_append_left hlt]
        · obtain ⟨further, hfurther⟩ : ∃ further, index - before.length = further + 1 :=
            ⟨index - before.length - 1, by omega⟩
          rw [List.getElem?_append_right hgt.le, List.getElem?_append_right hgt.le, hfurther,
            List.getElem?_cons_succ, List.getElem?_cons_succ]
      rw [Json.walk?_array hother]
      exact framed_refl.descend hbelow hcalls

/-- A chain without functions changes nothing, and one with functions makes a call. -/
lemma framed_runChain {plan : Plan} {node : PlanNode} {at_ : Position} {value : Json}
    {result : Json} (hresult : (plan.runChain node at_ value).outcome = .ok result)
    (hpath : Pointer.tokens? at_.path = some path) :
    Framed (plan.runChain node at_ value).calls path value result := by
  rw [runChain] at hresult ⊢
  cases hchain : node.chain with
  | nil =>
    rw [hchain] at hresult
    obtain rfl : value = result := Except.ok.inj hresult
    exact framed_refl
  | cons entry chain =>
    refine framed_of_calledAt ⟨⟨node.outline.pointer, at_.path, entry.1, value⟩, ?_, hpath⟩
    have hinputs : ∀ context, (entry.1, value)
        ∈ (runFunctions context (entry :: chain) value).inputs := by
      intro context
      rw [runFunctions]
      split <;> exact List.mem_cons_self
    split <;> exact List.mem_map_of_mem (hinputs _)

/-- **Frames compose.** -/
lemma composes_framed (plan : Plan) : plan.Composes (fun _ => True) fun pointer calls x y =>
    ∀ path, Pointer.tokens? pointer = some path → Framed calls path x y where
  refl := fun _ _ _ _ => framed_refl
  trans := fun hxy hyz path hpath => (hxy path hpath).trans (hyz path hpath)
  discard := fun _ hxz path hpath => (hxz path hpath).mono (List.subset_append_right _ _)
  member := fun before after h path hpath =>
    .member before after (h _ (by rw [Pointer.tokens?_child, hpath, Option.map_some]))
  item := fun before after h path hpath =>
    .item before after (h _ (by rw [Pointer.tokens?_child, hpath, Option.map_some]))
  chain := fun _ _ _ => ⟨fun _ hresult _ hpath => framed_runChain hresult hpath, fun _ _ => trivial⟩
  budget := trivial

end Plan

/-! ## Runs -/

namespace Pointer

/-- Whether a place is another, or lies above it. -/
def isAtOrAbove (pointer other : Pointer) : Bool :=
  match tokens? pointer, tokens? other with
  | some path, some way => path.isPrefixOf way
  | _, _ => false

lemma isAtOrAbove_append {pointer other : Pointer} {path below : List String}
    (hpointer : tokens? pointer = some path) (hother : tokens? other = some (path ++ below)) :
    isAtOrAbove pointer other = true := by
  rw [isAtOrAbove, hpointer, hother]
  exact List.isPrefixOf_iff_prefix.2 (List.prefix_append _ _)

end Pointer

namespace Plan

/-- **What a run leaves as it is.**  Where no transform has been called at a place or above it, the
result has there an object with the same keys, or an array of the same length, as the value; and if none
has been called beneath it either, just what the value has. -/
theorem run_leaves_untouched (plan : Plan) (steps : ℕ) {value result part : Json} {pointer : Pointer}
    (hresult : (plan.run steps value).outcome = .ok result)
    (hpart : value.resolve? pointer = some part)
    (habove : ∀ call ∈ (plan.run steps value).calls,
      Pointer.isAtOrAbove call.instancePath pointer = false) :
    (∃ other, result.resolve? pointer = some other ∧ part.SameMake other)
      ∧ ((∀ call ∈ (plan.run steps value).calls,
        Pointer.isAtOrAbove pointer call.instancePath = false) →
          result.resolve? pointer = some part) := by
  have hframed : Framed (plan.run steps value).calls [] value result :=
    ((composes_framed plan).run steps value).ok result hresult [] rfl
  rw [Json.resolve?_eq] at hpart
  obtain ⟨way, hway, hpart⟩ := Option.bind_eq_some_iff.1 hpart
  obtain ⟨other, hother, hmake, hsame⟩ := hframed way part hpart
    fun before hbefore ⟨call, hcall, hpath⟩ => by
      obtain ⟨below, rfl⟩ := hbefore
      exact absurd (Pointer.isAtOrAbove_append hpath hway) (by simp [habove call hcall])
  rw [Json.resolve?_eq, hway, Option.bind_some]
  refine ⟨⟨other, hother, hmake⟩, fun hbelow => ?_⟩
  rw [hother, hsame fun below ⟨call, hcall, hpath⟩ =>
    absurd (Pointer.isAtOrAbove_append hway hpath) (by simp [hbelow call hcall])]

/-- A schema that rewrites a member, and tries to rewrite items. -/
def workingSchema : Fragment where
  keywords :=
    [("properties", .object [
        ("list", .object [("items", .object [("anyOf", .array [
          .object [("transform", .array [.string "refuse"])], .bool true])])]),
        ("n", .object [("transform", .array [.string "set"])])])]

/-- Options with the transforms of the schema; one sets a number, and the other makes a complaint. -/
def workingOptions : Options where
  transforms := Table.ofPairs
    [("refuse", fun context _ => { issues := [context.issue "no" none], outcome := .ok .null }),
      ("set", Transform.ofFunction fun _ => .ok (.int 2))]

/-- A value for the schema. -/
def workingValue : Json :=
  .object [("list", .array [.int 1, .int 2]), ("n", .int 1), ("rest", .array [.object []])]

/-- Calls are made beneath the list, so its length is kept, and none at the rest, which is kept. -/
theorem workingSchema_leaves_rest : ∃ plan result,
    compile (Matcher.build {} [] {}) workingSchema workingOptions = .ok plan
      ∧ (plan.run 8 workingValue).outcome = .ok result
      ∧ (∃ other, result.resolve? "/list" = some other
        ∧ Json.SameMake (.array [.int 1, .int 2]) other)
      ∧ result.resolve? "/rest" = some (.array [.object []]) := by
  have hfacts : (match compile (Matcher.build {} [] {}) workingSchema workingOptions with
      | .ok plan => decide (((plan.run 8 workingValue).outcome.isOk = true)
        ∧ (∀ call ∈ (plan.run 8 workingValue).calls,
          Pointer.isAtOrAbove call.instancePath "/list" = false)
        ∧ (∀ call ∈ (plan.run 8 workingValue).calls,
          Pointer.isAtOrAbove call.instancePath "/rest" = false)
        ∧ ∀ call ∈ (plan.run 8 workingValue).calls,
          Pointer.isAtOrAbove "/rest" call.instancePath = false)
      | .error _ => false) = true := by
    decide +kernel
  split at hfacts
  · rename_i plan h
    obtain ⟨hok, hlist, hrest, hbelow⟩ := of_decide_eq_true hfacts
    obtain ⟨result, hresult⟩ := exists_of_isOk hok
    exact ⟨plan, result, h, hresult, (run_leaves_untouched plan 8 hresult (by decide +kernel) hlist).1,
      (run_leaves_untouched plan 8 hresult (by decide +kernel) hrest).2 hbelow⟩
  · simp at hfacts

end Plan

end SchemaAlgebra
