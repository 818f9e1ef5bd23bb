import SchemaAlgebra.Proofs.Budget
import SchemaAlgebra.Proofs.Easing

/-!
# What counts for a value, and what against it

That a value satisfies a schema inside a document may count for it, or against it: `not` turns one into the
other, `oneOf` and `if` have both, as has `contains` beside `maxContains`, and references pass on what they
are met with (`Document.Counts`).  Dynamic references are not followed by matching, but are held to lead to
any schema here, so what is said of stances does not depend on their being left out.

A document that requires fewer names than another one, and is like it otherwise, accepts more, if it
requires as many wherever it counts against a value that a schema is satisfied.

* `Matcher.Shifts` — such a document, next to the other one.
* **`Matcher.Shifts.judge_mono`** — within any budget, what satisfies a schema that counts for a value
  satisfies its counterpart, and the other way around if it counts against the value.  By induction on the
  steps, both ways at once.
-/

namespace SchemaAlgebra

/-! ## Stances -/

/-- What it counts for, that a value satisfies a schema under a keyword: for the value (`true`) or against
it.  The schema around, with these keywords, counts in the given way. -/
def stancesUnder (draft : Draft) (keywords : Entries Json) (keyword : String) (stance : Bool) : List Bool :=
  (if keyword = "not" then [] else [stance])
    ++ if Matcher.opposes draft keywords keyword then [!stance] else []

lemma mem_stancesUnder {draft : Draft} {keywords : Entries Json} {keyword : String} (stance : Bool)
    (hkeyword : keyword ≠ "not") : stance ∈ stancesUnder draft keywords keyword stance := by
  simp [stancesUnder, hkeyword]

lemma not_mem_stancesUnder {draft : Draft} {keywords : Entries Json} {keyword : String} (stance : Bool)
    (hkeyword : Matcher.opposes draft keywords keyword = true) :
    (!stance) ∈ stancesUnder draft keywords keyword stance := by
  simp [stancesUnder, hkeyword]

namespace Document

variable {document : Document} {stance : Bool} {location : Location} {keywords : Entries Json}

/-- The keywords that refer to a schema by where matching came from. -/
def dynamicKeywords : List String :=
  ["$dynamicRef", "$recursiveRef"]

/-- Where the dynamic references of a schema may lead, which matching leaves out: to what they name, or to
any schema of the document. -/
def dynamicTargets (document : Document) (location : Location) (keywords : Entries Json) : List Location :=
  (keywords.filter fun entry =>
    entry.1 ∈ dynamicKeywords && (location.inner.draft.shape? entry.1).isSome).flatMap fun (_, reference) =>
      (reference.string?.bind (document.resolve? location.inner)).toList ++ document.sites.map Site.location

/-- The schemas that count because of one that does. -/
def swayed (document : Document) (state : Bool × Location) : List (Bool × Location) :=
  match state.2.value with
  | .object keywords =>
    ((Matcher.applied state.2.inner.draft keywords).flatMap fun (tokens, value) =>
      (stancesUnder state.2.inner.draft keywords (tokens.headD "") state.1).map fun stance =>
        (stance, ⟨state.2.inner, state.2.path ++ tokens, value⟩))
    ++ (((Draft.reference? keywords).bind (document.resolve? state.2.inner)).map (Prod.mk state.1)).toList
    ++ (document.dynamicTargets state.2 keywords).map (Prod.mk state.1)
  | _ => []

/-- **What counts** for a value (`true`) or against it (`false`): that it satisfies the schema at a
location. -/
def Counts (document : Document) (stance : Bool) (location : Location) : Prop :=
  Graph.Leads document.swayed (true, document.rootLocation) (stance, location)

lemma Counts.part (h : document.Counts stance location) (hvalue : location.value = .object keywords)
    {head : String} {rest : List String} {schema : Json}
    (hschema : (head :: rest, schema) ∈ Matcher.applied location.inner.draft keywords) {other : Bool}
    (hstance : other ∈ stancesUnder location.inner.draft keywords head stance) :
    document.Counts other ⟨location.inner, location.path ++ head :: rest, schema⟩ := by
  refine Relation.ReflTransGen.tail h ?_
  unfold swayed
  rw [hvalue]
  exact List.mem_append_left _ (List.mem_append_left _
    (List.mem_flatMap.2 ⟨_, hschema, List.mem_map_of_mem hstance⟩))

lemma Counts.target (h : document.Counts stance location) (hvalue : location.value = .object keywords)
    {text : String} {target : Location} (htext : Draft.reference? keywords = some text)
    (htarget : document.resolve? location.inner text = some target) : document.Counts stance target := by
  refine Relation.ReflTransGen.tail h ?_
  unfold swayed
  rw [hvalue]
  refine List.mem_append_left _ (List.mem_append_right _ ?_)
  rw [htext, Option.bind_some, htarget]
  exact List.mem_singleton_self _

end Document

/-! ## Fewer names required -/

namespace Matcher

variable {R : List String → List String → Prop} {m m' : Matcher} {location other : Location}
  {keywords others : Entries Json}

/-- **A document that requires fewer names** than another one, but as many where schemas count against a
value. -/
structure Shifts (R : List String → List String → Prop) (m m' : Matcher) : Prop where
  alike : m.Alike m'
  revises : m.document.Revises R m'.document
  fewer : ∀ names fewer, R names fewer → fewer ⊆ names
  firm : ∀ location keywords others, m.document.Counts false location →
    location.value = .object keywords → m'.document.root.walk? location.path = some (.object others) →
    namesRequired keywords ⊆ namesRequired others
  listed : m.document.Listed
  listed' : m'.document.Listed
  wellFormed : m.document.root.WellFormed
  wellFormed' : m'.document.root.WellFormed

/-- A schema and its counterpart, where they stand. -/
structure Paired (R : List String → List String → Prop) (m m' : Matcher) (location other : Location) :
    Prop where
  revises : location.Revises R other
  sound : location.Sound m.document.root
  sound' : other.Sound m'.document.root

lemma judge_of_isNames {steps : ℕ} {scope : Scope} {schema value : Json} (h : schema.IsNames) :
    m.judge steps scope schema value = [] := by
  cases steps with
  | zero => rfl
  | succ steps => obtain ⟨name, rfl⟩ | ⟨names, rfl⟩ := h <;> rfl

lemma eases_of_not_object {steps : ℕ} {scope : Scope} {schema : Json} (h : schema.isObject = false) :
    Eases (m.judge steps) (m'.judge steps) scope schema := by
  intro value hnil
  cases steps with
  | zero => rfl
  | succ steps => exact (judge_of_not_object h).symm.trans hnil

lemma sound_of_applied {location : Location} {tokens : List String} {schema : Json}
    (hroot : m.document.root.WellFormed) (hsound : location.Sound m.document.root)
    (hvalue : location.value = .object keywords) {draft : Draft}
    (hschema : (tokens, schema) ∈ applied draft keywords) (scope : Scope) :
    Location.Sound m.document.root ⟨scope, location.path ++ tokens, schema⟩ := by
  rw [Location.Sound, hvalue] at hsound
  have hwf := Json.wellFormed_of_walk? hroot hsound
  exact (Json.walk?_append _ _ _).trans (Option.bind_eq_some_iff.2
    ⟨_, hsound, Json.walk?_of_mem_inside hwf (mem_inside_of_applied hschema)⟩)

lemma sorted_of_sound {location : Location} (hroot : m.document.root.WellFormed)
    (hsound : location.Sound m.document.root) (hvalue : location.value = .object keywords) :
    Entries.Sorted keywords := by
  rw [Location.Sound, hvalue] at hsound
  exact (Json.wellFormed_of_walk? hroot hsound).1

/-- The schemas inside are paired too. -/
lemma Paired.part (hpaired : Paired R m m' location other) (h : m.Shifts R m')
    (hvalue : location.value = .object keywords) (hother : other.value = .object others)
    {tokens : List String} {schema new : Json}
    (hschema : (tokens, schema) ∈ applied location.inner.draft keywords)
    (hnew : (tokens, new) ∈ applied location.inner.draft others) (hrevises : Json.Revises R schema new) :
    Paired R m m' ⟨location.inner, location.path ++ tokens, schema⟩
      ⟨location.inner, location.path ++ tokens, new⟩ where
  revises := ⟨rfl, rfl, hrevises⟩
  sound := sound_of_applied h.wellFormed hpaired.sound hvalue hschema _
  sound' := by
    have hsound := sound_of_applied h.wellFormed' hpaired.sound' hother hnew location.inner
    rwa [← hpaired.revises.path] at hsound

/-- What a schema that counts for a value finds right, its counterpart does too; the other way around if the
schema counts against the value. -/
def Follows (m m' : Matcher) (steps : ℕ) (stance : Bool) (location other : Location) : Prop :=
  match stance with
  | true => ∀ value, m.judge steps location.scope location.value value = [] →
      m'.judge steps other.scope other.value value = []
  | false => ∀ value, m'.judge steps other.scope other.value value = [] →
      m.judge steps location.scope location.value value = []

/-- References lead to counterparts, or to what holds no schema. -/
lemma followReference_mono {judge judge' : Judge} {scope : Scope} {text : String} {value : Json}
    (hrevises : m.document.Revises R m'.document)
    (hnames : ∀ scope schema, schema.IsNames → judge' scope schema value = [])
    (hjudge : ∀ target new, m.document.resolve? scope text = some target →
      m'.document.resolve? scope text = some new → target.Revises R new →
      judge target.scope target.value value = [] → judge' new.scope new.value value = [])
    (hnil : m.followReference judge scope text value = []) :
    m'.followReference judge' scope text value = [] := by
  rw [followReference]
  cases hnew : m'.document.resolve? scope text with
  | none => rfl
  | some new =>
    rcases hrevises.flip.resolve? hnew with ⟨target, htarget, htargets⟩ | hlist
    · have hself : target.value.members?.bind Draft.reference? = new.value.members?.bind Draft.reference? :=
        htargets.flip.value.members?_reference_eq
      rw [followReference, htarget] at hnil
      dsimp only at hnil ⊢
      rw [hself] at hnil
      split
      · rfl
      · rename_i hother
        rw [if_neg hother] at hnil
        exact List.map_eq_nil_iff.2
          (hjudge target new htarget hnew htargets.flip (List.map_eq_nil_iff.1 hnil))
    · dsimp only
      split
      · rfl
      · exact List.map_eq_nil_iff.2 (hnames _ _ hlist)

lemma judge_eq_of_revises {steps : ℕ} {scope : Scope} {schema new value : Json}
    (hrevises : Json.Revises R schema new) (hobject : schema.isObject = false) :
    m.judge steps scope schema value = m'.judge steps scope new value := by
  cases steps with
  | zero => rfl
  | succ steps =>
    cases hrevises with
    | same => exact judge_of_not_object hobject
    | array => rfl
    | required | union => simp [Json.isObject] at hobject

/-- What an object finds wrong is what its keywords do. -/
lemma judge_at (hvalue : location.value = .object keywords) (steps : ℕ) (value : Json) :
    m.judge (steps + 1) location.scope location.value value
      = m.nodeViolations (m.judge steps) location.inner keywords value := by
  rw [Location.inner, hvalue]
  rfl

/-- The schemas that two objects go on to follow each other. -/
structure GoesOn (R : List String → List String → Prop) (m m' : Matcher) (steps : ℕ) (stance : Bool)
    (location : Location) (keywords others : Entries Json) : Prop where
  parts : ∀ {other : Bool} {head : String} {rest : List String} {schema new : Json},
    other ∈ stancesUnder location.inner.draft keywords head stance →
    (head :: rest, schema) ∈ applied location.inner.draft keywords →
    (head :: rest, new) ∈ applied location.inner.draft others → Json.Revises R schema new →
    Follows m m' steps other ⟨location.inner, location.path ++ head :: rest, schema⟩
      ⟨location.inner, location.path ++ head :: rest, new⟩
  targets : ∀ {text : String} {target new : Location}, Draft.reference? keywords = some text →
    m.document.resolve? location.inner text = some target →
    m'.document.resolve? location.inner text = some new → target.Revises R new →
    Follows m m' steps stance target new

/-- An object that counts for a value demands less than before. -/
lemma Shifts.follows_for (h : m.Shifts R m') {steps : ℕ} (hpaired : Paired R m m' location other)
    (hvalue : location.value = .object keywords) (hother : other.value = .object others)
    (hrevises : Json.Revises R (.object keywords) (.object others))
    (hgoes : GoesOn R m m' steps true location keywords others) :
    Follows m m' (steps + 1) true location other := by
  intro value hnil
  rw [judge_at hvalue] at hnil
  rw [judge_at hother, ← hpaired.revises.inner_eq]
  refine nodeViolations_mono
    { plain := fun schema hplain => ⟨eases_of_not_object hplain, eases_of_not_object hplain⟩
      counting := fun head rest schema new hhead => hgoes.parts (mem_stancesUnder true hhead)
      opposing := fun head rest schema new hhead => hgoes.parts
        (not_mem_stancesUnder true ((opposes_eq_of_revises hrevises _).trans hhead)) }
    h.alike hrevises (sorted_of_sound h.wellFormed' hpaired.sound' hother)
    (hrevises.namesRequired_subset h.fewer) (fun text htext => ?_) hnil
  exact followReference_mono h.revises (fun _ _ => judge_of_isNames) fun target new hold hnew htarget =>
    hgoes.targets (hrevises.reference?_eq.trans htext) hold hnew htarget value

/-- An object that counts against a value demands as much as before. -/
lemma Shifts.follows_against (h : m.Shifts R m') {steps : ℕ} (hpaired : Paired R m m' location other)
    (hvalue : location.value = .object keywords) (hother : other.value = .object others)
    (hrevises : Json.Revises R (.object keywords) (.object others))
    (hcounts : m.document.Counts false location)
    (hgoes : GoesOn R m m' steps false location keywords others) :
    Follows m m' (steps + 1) false location other := by
  intro value hnil
  rw [judge_at hother, ← hpaired.revises.inner_eq] at hnil
  rw [judge_at hvalue]
  -- the names required before are required still, as the schema counts against the value
  have hwalk : m'.document.root.walk? location.path = some (.object others) := by
    rw [hpaired.revises.path, ← hother]
    exact hpaired.sound'
  refine nodeViolations_mono (R := flip R)
    { plain := fun schema hplain => ⟨eases_of_not_object hplain, eases_of_not_object hplain⟩
      counting := fun head rest schema new hhead hschema hnew hback =>
        hgoes.parts (mem_stancesUnder false hhead) hnew hschema hback.flip
      opposing := fun head rest schema new hhead hschema hnew hback =>
        hgoes.parts (not_mem_stancesUnder false hhead) hnew hschema hback.flip }
    h.alike.symm hrevises.flip (sorted_of_sound h.wellFormed hpaired.sound hvalue)
    (h.firm location keywords others hcounts hvalue hwalk) (fun text htext => ?_) hnil
  exact followReference_mono h.revises.flip (fun _ _ => judge_of_isNames)
    fun target new hold hnew htarget => hgoes.targets htext hnew hold htarget.flip value

/-- **One step.**  A schema follows its counterpart if the schemas do that the two go on to. -/
lemma Shifts.follows_succ (h : m.Shifts R m') {steps : ℕ}
    (ih : ∀ {stance location other}, m.document.Counts stance location → Paired R m m' location other →
      Follows m m' steps stance location other) {stance : Bool}
    (hcounts : m.document.Counts stance location) (hpaired : Paired R m m' location other) :
    Follows m m' (steps + 1) stance location other := by
  by_cases hobject : location.value.isObject = true
  · obtain ⟨keywords, hvalue⟩ := exists_object_of_isObject hobject
    have hrevises := hpaired.revises.value
    rw [hvalue] at hrevises
    obtain ⟨others, hother⟩ := hrevises.exists_object
    rw [hother] at hrevises
    have hgoes : GoesOn R m m' steps stance location keywords others :=
      { parts := fun hstance hschema hnew hpart =>
          ih (hcounts.part hvalue hschema hstance) (hpaired.part h hvalue hother hschema hnew hpart)
        targets := fun htext htarget hnew hpair =>
          ih (hcounts.target hvalue htext htarget)
            ⟨hpair, Document.resolve?_sound h.listed htarget, Document.resolve?_sound h.listed' hnew⟩ }
    cases stance with
    | true => exact h.follows_for hpaired hvalue hother hrevises hgoes
    | false => exact h.follows_against hpaired hvalue hother hrevises hcounts hgoes
  · -- what is no object requires nothing, and is judged alike
    have heq : ∀ value, m.judge (steps + 1) location.scope location.value value
        = m'.judge (steps + 1) other.scope other.value value := fun value =>
      hpaired.revises.scope ▸ judge_eq_of_revises hpaired.revises.value (by simpa using hobject)
    cases stance with
    | true => exact fun value hnil => (heq value).symm.trans hnil
    | false => exact fun value hnil => (heq value).trans hnil

/-- **Schemas follow their counterparts**, whatever the budget. -/
lemma Shifts.judge_mono (h : m.Shifts R m') {steps : ℕ} {stance : Bool} {location other : Location}
    (hcounts : m.document.Counts stance location) (hpaired : Paired R m m' location other) :
    Follows m m' steps stance location other := by
  induction steps generalizing stance location other with
  | zero => cases stance <;> exact fun _ _ => rfl
  | succ steps ih => exact h.follows_succ ih hcounts hpaired

/-- **The verdict.**  A document that requires fewer names, and is no larger, accepts what was accepted, if
matching ends. -/
theorem Shifts.accepts_mono (h : m.Shifts R m') {value : Json}
    (hsize : m'.document.root.positions ≤ m.document.root.positions) (hends : m'.Ends value)
    (haccepts : m.accepts value = true) : m'.accepts value = true := by
  have hroot : Paired R m m' m.document.rootLocation m'.document.rootLocation :=
    ⟨h.revises.rootLocation, Document.rootLocation_sound, Document.rootLocation_sound⟩
  have hfollows : Follows m m' (m.budget value) true m.document.rootLocation m'.document.rootLocation :=
    h.judge_mono .refl hroot
  rw [accepts, List.isEmpty_iff] at haccepts ⊢
  rw [← hends (m.budget value) (Nat.mul_le_mul_right _ (Nat.succ_le_succ hsize))]
  exact hfollows value haccepts

end Matcher

end SchemaAlgebra
