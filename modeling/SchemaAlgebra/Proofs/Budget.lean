import Mathlib.Data.List.Perm.Subperm
import SchemaAlgebra.Proofs.Congruence

/-!
# The budget of matching

Matching has a budget of steps (`Matcher.budget`), because references may go in circles.  Unless they
do, the budget is enough: with more steps, matching finds the same wrong (`Matcher.judge_settles`).

From one schema to the next, matching stays at the value or goes further in.  The schemas that it
comes to at one value are schemas of the document, and none of them twice (`Matcher.Straight`), so it
goes further in after at most as many steps as the document has positions.
-/

namespace SchemaAlgebra

/-! ## Depth and size -/

namespace Json

mutual

theorem depth_le_positions : ∀ value : Json, value.depth ≤ value.positions
  | .array items => Nat.succ_le_succ (itemsDepth_le_itemsPositions items)
  | .object members => Nat.succ_le_succ (membersDepth_le_membersPositions members)
  | .null | .bool _ | .number _ | .string _ => Nat.zero_le _

theorem itemsDepth_le_itemsPositions : ∀ items : List Json, itemsDepth items ≤ itemsPositions items
  | [] => Nat.le_refl _
  | item :: rest => Nat.max_le.2
    ⟨Nat.le_trans (depth_le_positions item) (Nat.le_add_right _ _),
      Nat.le_trans (itemsDepth_le_itemsPositions rest) (Nat.le_add_left _ _)⟩

theorem membersDepth_le_membersPositions : ∀ members : List (String × Json),
    membersDepth members ≤ membersPositions members
  | [] => Nat.le_refl _
  | (_, value) :: rest => Nat.max_le.2
    ⟨Nat.le_trans (depth_le_positions value) (Nat.le_add_right _ _),
      Nat.le_trans (membersDepth_le_membersPositions rest) (Nat.le_add_left _ _)⟩

end

/-- A member takes its share of the room. -/
lemma positions_add_erase {key : String} {value : Json} {members : Entries Json}
    (hsorted : members.Sorted) (hlookup : Entries.lookup key members = some value) :
    value.positions + membersPositions (Entries.erase key members) = membersPositions members := by
  induction members with
  | nil => simp at hlookup
  | cons entry rest ih =>
    obtain ⟨hfirst, hrest⟩ := List.pairwise_cons.1 hsorted
    rw [membersPositions]
    by_cases hkey : entry.1 = key
    · obtain ⟨first, member⟩ := entry
      obtain rfl : first = key := hkey
      rw [Entries.lookup_cons_self] at hlookup
      obtain rfl := Option.some.inj hlookup
      have herase : Entries.erase first ((first, member) :: rest) = rest := by
        rw [Entries.erase, List.filter_cons_of_neg (by simp)]
        refine List.filter_eq_self.2 fun later hlater => decide_eq_true fun heq => ?_
        exact String.lt_irrefl _ (heq ▸ hfirst later hlater)
      rw [herase]
    · have herase : Entries.erase key (entry :: rest) = entry :: Entries.erase key rest := by
        simp [Entries.erase, hkey]
      rw [Entries.lookup_cons_of_ne hkey] at hlookup
      rw [herase, membersPositions, ← ih hrest hlookup]
      omega

/-- Members that are all found elsewhere, at least as large, take at most as much room. -/
lemma membersPositions_le {few many : Entries Json} (hsorted : few.Sorted) (hsorted' : many.Sorted)
    (h : ∀ entry ∈ few, ∃ other, Entries.lookup entry.1 many = some other
      ∧ entry.2.positions ≤ other.positions) : membersPositions few ≤ membersPositions many := by
  induction few generalizing many with
  | nil => exact Nat.zero_le _
  | cons entry rest ih =>
    obtain ⟨hfirst, hrest⟩ := List.pairwise_cons.1 hsorted
    obtain ⟨other, hother, hle⟩ := h entry List.mem_cons_self
    have herase := positions_add_erase hsorted' hother
    have hless : membersPositions rest ≤ membersPositions (Entries.erase entry.1 many) := by
      refine ih hrest (hsorted'.filter _) fun later hlater => ?_
      have hne : later.1 ≠ entry.1 := fun heq => String.lt_irrefl _ (heq ▸ hfirst later hlater)
      rw [Document.lookup_erase_of_ne hne]
      exact h later (List.mem_cons_of_mem _ hlater)
    rw [membersPositions]
    omega

lemma itemsPositions_append (items more : List Json) :
    itemsPositions (items ++ more) = itemsPositions items + itemsPositions more := by
  induction items with
  | nil => simp [itemsPositions]
  | cons item rest ih => rw [List.cons_append, itemsPositions, itemsPositions, ih, Nat.add_assoc]

end Json

namespace Matcher

variable {m : Matcher} {place : Place}

/-- The budget is greater than the depth of the document. -/
lemma depth_lt_budget (m : Matcher) (value : Json) : m.document.root.depth < m.budget value := by
  have hdepth := Json.depth_le_positions m.document.root
  have hmul := Nat.mul_le_mul (Nat.le_refl (m.document.root.positions + 1)) (Nat.le_add_left 2 value.depth)
  rw [budget]
  omega

/-- The schemas that a schema applies to the value itself. -/
def partsInPlace (m : Matcher) (place : Place) : List Place :=
  match place.2 with
  | .object keywords =>
    (effectiveKeywords place.inner.draft keywords).flatMap fun entry =>
      match m.lead place.inner.draft keywords entry with
      | .schemas _ schemas =>
        if entry.1 ∈ appliedInPlace then schemas.map fun schema => (place.inner, schema) else []
      | _ => []
  | _ => []

/-- The schemas that matching goes on to at the same value. -/
def beside (m : Matcher) (place : Place) : List Place :=
  m.partsInPlace place ++ m.targets place

/-- **No circles.**  Matching does not come to a schema again before it has gone further in. -/
def Straight (m : Matcher) (place : Place) : Prop :=
  ∀ met, Graph.Leads m.successors place met →
    ¬ Relation.TransGen (fun a b => b ∈ m.beside a) met met

lemma mem_partsInPlace {scope : Scope} {keywords : Entries Json} {entry : String × Json}
    {patterns : List String} {schemas : List Json} {schema : Json}
    (hentry : entry ∈ effectiveKeywords (scope.enter keywords).draft keywords)
    (hlead : m.lead (scope.enter keywords).draft keywords entry = .schemas patterns schemas)
    (hkeyword : entry.1 ∈ appliedInPlace) (hschema : schema ∈ schemas) :
    (scope.enter keywords, schema) ∈ m.partsInPlace (scope, .object keywords) := by
  refine List.mem_flatMap.2 ⟨entry, hentry, ?_⟩
  have hinner : Place.inner (scope, .object keywords) = scope.enter keywords := rfl
  rw [hinner, hlead]
  dsimp only
  rw [if_pos hkeyword]
  exact List.mem_map_of_mem hschema

lemma mem_parts_of_mem_partsInPlace {part : Place} (h : part ∈ m.partsInPlace place) :
    part ∈ m.parts place := by
  obtain ⟨scope, schema⟩ := place
  by_cases hobject : schema.isObject = true
  · obtain ⟨keywords, rfl⟩ := exists_object_of_isObject hobject
    obtain ⟨entry, hentry, h⟩ := List.mem_flatMap.1 h
    split at h
    · rename_i patterns schemas hlead
      split at h
      · obtain ⟨schema, hschema, rfl⟩ := List.mem_map.1 h
        exact mem_parts.2 ⟨patterns, schemas, hlead ▸ List.mem_map_of_mem hentry, hschema, rfl⟩
      · simp at h
    · simp at h
  · unfold partsInPlace at h
    split at h
    · simp_all [Json.isObject]
    · simp at h

lemma mem_successors_of_mem_beside {next : Place} (h : next ∈ m.beside place) :
    next ∈ m.successors place := by
  rcases List.mem_append.1 h with h | h
  · exact List.mem_append_left _ (mem_parts_of_mem_partsInPlace h)
  · exact List.mem_append_right _ h

/-- Matching goes in no circles among places of which each comes, at one value, to earlier ones only. -/
lemma straight_of_listed {places : List Place} (hplace : place ∈ places)
    (hclosed : ∀ met ∈ places, ∀ next ∈ m.successors met, next ∈ places)
    (hearlier : ∀ met ∈ places, ∀ next ∈ m.beside met, places.idxOf next < places.idxOf met) :
    m.Straight place := by
  have hdown : ∀ {met next}, met ∈ places → Relation.TransGen (fun a b => b ∈ m.beside a) met next →
      next ∈ places ∧ places.idxOf next < places.idxOf met := by
    intro met next hmet hway
    induction hway with
    | single hstep =>
      exact ⟨hclosed met hmet _ (mem_successors_of_mem_beside hstep), hearlier met hmet _ hstep⟩
    | tail _ hstep ih =>
      exact ⟨hclosed _ ih.1 _ (mem_successors_of_mem_beside hstep),
        Nat.lt_trans (hearlier _ ih.1 _ hstep) ih.2⟩
  intro met hleads hcircle
  have hmet : met ∈ places := Graph.mem_of_leads hclosed hplace hleads
  exact Nat.lt_irrefl _ (hdown hmet hcircle).2

lemma beside_eq_of_inner {scope scope' : Scope} {keywords : Entries Json}
    (h : scope.enter keywords = scope'.enter keywords) :
    m.beside (scope, .object keywords) = m.beside (scope', .object keywords) := by
  simp only [beside, partsInPlace, targets, texts, leads, Place.inner, h]

lemma length_le_of_occurs {seen : List Json} (hnodup : seen.Nodup)
    (hoccurs : ∀ schema ∈ seen, m.Occurs schema) : seen.length ≤ m.document.root.positions := by
  have hsubset : seen ⊆ m.document.root.paths.filterMap m.document.root.walk? := by
    intro schema hschema
    obtain ⟨path, hpath⟩ := hoccurs schema hschema
    exact List.mem_filterMap.2 ⟨path, Json.mem_paths_of_walk? hpath, hpath⟩
  calc seen.length
      ≤ (m.document.root.paths.filterMap m.document.root.walk?).length :=
        (List.subperm_of_subset hnodup hsubset).length_le
    _ ≤ m.document.root.paths.length := List.length_filterMap_le _ _
    _ = m.document.root.positions := Json.length_paths _

/-- The schemas that matching has come to at the value at hand, on its way to a place. -/
structure Passed (m : Matcher) (start place : Place) (seen : List Json) : Prop where
  nodup : seen.Nodup
  occurs : ∀ schema ∈ seen, m.Occurs schema
  leads : ∀ schema ∈ seen, ∃ scope, Graph.Leads m.successors start (scope, schema)
    ∧ Relation.TransGen (fun a b => b ∈ m.beside a) (scope, schema) place

lemma Passed.nil {start place : Place} : m.Passed start place [] :=
  ⟨List.nodup_nil, by simp, by simp⟩

lemma Passed.not_mem {start : Place} {scope : Scope} {keywords : Entries Json} {seen : List Json}
    (h : m.Passed start (scope, .object keywords) seen) (hrooted : m.Rooted start)
    (hstraight : m.Straight start)
    (hplace : Graph.Leads m.successors start (scope, .object keywords)) :
    Json.object keywords ∉ seen := by
  intro hmem
  obtain ⟨scope', hleads, htrans⟩ := h.leads _ hmem
  obtain ⟨next, hnext, hrest⟩ := Relation.TransGen.head'_iff.1 htrans
  rw [beside_eq_of_inner ((hrooted scope' keywords hleads).trans
    (hrooted scope keywords hplace).symm)] at hnext
  exact hstraight _ hplace (Relation.TransGen.head'_iff.2 ⟨next, hnext, hrest⟩)

lemma Passed.beside {start next : Place} {seen : List Json} (h : m.Passed start place seen)
    (hnew : place.2 ∉ seen) (hoccurs : m.Occurs place.2)
    (hplace : Graph.Leads m.successors start place) (hnext : next ∈ m.beside place) :
    m.Passed start next (place.2 :: seen) where
  nodup := List.nodup_cons.2 ⟨hnew, h.nodup⟩
  occurs := List.forall_mem_cons.2 ⟨hoccurs, h.occurs⟩
  leads := by
    refine List.forall_mem_cons.2 ⟨⟨place.1, hplace, .single hnext⟩, fun schema hschema => ?_⟩
    obtain ⟨scope, hleads, htrans⟩ := h.leads schema hschema
    exact ⟨scope, hleads, htrans.tail hnext⟩

/-- What a schema finds wrong depends on the schemas beside it, as they judge the value, and on its
parts, as they judge what lies further in. -/
lemma nodeViolations_congr {judge judge' : Judge} {scope : Scope} {keywords : Entries Json}
    {value : Json} (hsorted : keywords.Sorted)
    (hbeside : ∀ next ∈ m.beside (scope, .object keywords),
      judge next.1 next.2 value = judge' next.1 next.2 value)
    (hparts : ∀ part ∈ m.parts (scope, .object keywords), ∀ inner, inner.depth < value.depth →
      judge part.1 part.2 inner = judge' part.1 part.2 inner) :
    m.nodeViolations judge (scope.enter keywords) keywords value
      = m.nodeViolations judge' (scope.enter keywords) keywords value := by
  refine List.flatMap_congr fun entry hentry => ?_
  have hlead : m.lead (scope.enter keywords).draft keywords entry
      ∈ m.leads (scope, .object keywords) := List.mem_map_of_mem hentry
  refine keywordViolations_congr ⟨rfl, rfl, rfl⟩ rfl
    (Entries.lookup_of_mem hsorted (mem_of_mem_effectiveKeywords hentry)) ?_ ?_
  · intro text htext
    rw [followReference, followReference]
    cases htarget : m.document.resolve? (scope.enter keywords) text with
    | none => rfl
    | some target =>
      have hmem : (target.scope, target.value) ∈ m.targets (scope, .object keywords) :=
        mem_targets.2 ⟨text, mem_texts.2 (htext ▸ hlead), target, htarget, rfl⟩
      dsimp only
      rw [applyHere, applyHere, hbeside _ (List.mem_append_right _ hmem)]
  · intro patterns schemas hschemas schema hschema inner hwithin
    by_cases hkeyword : entry.1 ∈ appliedInPlace
    · rw [Within, if_pos hkeyword] at hwithin
      rw [hwithin]
      exact hbeside (scope.enter keywords, schema)
        (List.mem_append_left _ (mem_partsInPlace hentry hschemas hkeyword hschema))
    · rw [Within, if_neg hkeyword] at hwithin
      exact hparts (scope.enter keywords, schema)
        (mem_parts.2 ⟨patterns, schemas, hschemas ▸ hlead, hschema, rfl⟩) inner hwithin

lemma exists_steps_succ {steps depth positions : ℕ} {seen : List Json}
    (hseen : seen.length ≤ positions)
    (hsteps : (positions + 1) * (depth + 1) ≤ steps + seen.length) : ∃ rest, steps = rest + 1 := by
  refine Nat.exists_eq_succ_of_ne_zero ?_
  rintro rfl
  have hone : (positions + 1) * 1 ≤ (positions + 1) * (depth + 1) :=
    Nat.mul_le_mul_left _ (Nat.succ_pos depth)
  omega

/-- Further in, fewer steps are enough by as many as the schemas passed at most. -/
lemma steps_enough_within {steps depth inner positions : ℕ} {seen : List Json}
    (hseen : seen.length ≤ positions) (hinner : inner < depth)
    (hsteps : (positions + 1) * (depth + 1) ≤ steps + 1 + seen.length) :
    (positions + 1) * (inner + 1) ≤ steps := by
  have hless : (positions + 1) * (inner + 1) ≤ (positions + 1) * depth :=
    Nat.mul_le_mul_left _ hinner
  rw [Nat.mul_succ] at hsteps
  omega

lemma occurs_of_mem_beside {next : Place} (hlisted : m.document.Listed)
    (hroot : m.document.root.WellFormed) {scope : Scope} {keywords : Entries Json}
    (hoccurs : m.Occurs (.object keywords)) (hnext : next ∈ m.beside (scope, .object keywords)) :
    next ∈ m.successors (scope, .object keywords) ∧ m.Occurs next.2 := by
  rcases List.mem_append.1 hnext with hpart | htarget
  · have hpart := mem_parts_of_mem_partsInPlace hpart
    exact ⟨List.mem_append_left _ hpart, hoccurs.part hroot hpart⟩
  · obtain ⟨_, _, target, hresolve, rfl⟩ := mem_targets.1 htarget
    exact ⟨List.mem_append_right _ htarget, _, Document.resolve?_sound hlisted hresolve⟩

/-- **Matching settles.**  Once there are steps enough, their number does not matter.  By induction on
the steps: each passes one more schema at the value, or goes further in. -/
lemma judge_settles {start : Place} (hlisted : m.document.Listed)
    (hroot : m.document.root.WellFormed) (hrooted : m.Rooted start) (hstraight : m.Straight start)
    {steps steps' : ℕ} {seen : List Json} {value : Json}
    (hplace : Graph.Leads m.successors start place) (hoccurs : m.Occurs place.2)
    (hpassed : m.Passed start place seen)
    (hsteps : (m.document.root.positions + 1) * (value.depth + 1) ≤ steps + seen.length)
    (hsteps' : (m.document.root.positions + 1) * (value.depth + 1) ≤ steps' + seen.length) :
    m.judge steps place.1 place.2 value = m.judge steps' place.1 place.2 value := by
  induction steps generalizing steps' seen value place with
  | zero =>
    have hseen := length_le_of_occurs hpassed.nodup hpassed.occurs
    obtain ⟨rest, hrest⟩ := exists_steps_succ hseen hsteps
    simp at hrest
  | succ steps ih =>
    have hseen := length_le_of_occurs hpassed.nodup hpassed.occurs
    obtain ⟨steps', rfl⟩ := exists_steps_succ hseen hsteps'
    obtain ⟨scope, schema⟩ := place
    by_cases hobject : schema.isObject = true
    · obtain ⟨keywords, rfl⟩ := exists_object_of_isObject hobject
      have hwf : (Json.object keywords).WellFormed := by
        obtain ⟨path, hpath⟩ := hoccurs
        exact Json.wellFormed_of_walk? hroot hpath
      -- the schema has not been passed at this value, as it does not lead back to itself
      have hnew := hpassed.not_mem hrooted hstraight hplace
      refine nodeViolations_congr hwf.1 (fun next hnext => ?_) fun part hpart inner hinner => ?_
      · obtain ⟨hsuccessor, hnextOccurs⟩ := occurs_of_mem_beside hlisted hroot hoccurs hnext
        refine ih (hplace.tail hsuccessor) hnextOccurs (hpassed.beside hnew hoccurs hplace hnext)
          ?_ ?_
        · rw [List.length_cons]
          omega
        · rw [List.length_cons]
          omega
      · exact ih (hplace.tail (List.mem_append_left _ hpart)) (hoccurs.part hroot hpart) Passed.nil
          (steps_enough_within hseen hinner hsteps) (steps_enough_within hseen hinner hsteps')
    · exact judge_of_not_object (by simpa using hobject)

/-- **The budget suffices**, unless matching goes in circles. -/
theorem violations_eq_of_budget_le (hlisted : m.document.Listed)
    (hroot : m.document.root.WellFormed) (hrooted : m.Rooted m.start)
    (hstraight : m.Straight m.start) {steps : ℕ} {value : Json} (hsteps : m.budget value ≤ steps) :
    m.judge steps m.document.scope m.document.root value = m.violations value := by
  have hbudget : (m.document.root.positions + 1) * (value.depth + 1) ≤ m.budget value :=
    Nat.mul_le_mul_left _ (Nat.le_succ _)
  exact judge_settles hlisted hroot hrooted hstraight Relation.ReflTransGen.refl ⟨[], rfl⟩ Passed.nil
    (Nat.le_trans hbudget hsteps) hbudget

/-- **Matching ends** for a value: with more steps than the budget, the same is wrong. -/
def Ends (m : Matcher) (value : Json) : Prop :=
  ∀ steps, m.budget value ≤ steps →
    m.judge steps m.document.scope m.document.root value = m.violations value

lemma ends_of_straight (hlisted : m.document.Listed) (hroot : m.document.root.WellFormed)
    (hrooted : m.Rooted m.start) (hstraight : m.Straight m.start) (value : Json) : m.Ends value :=
  fun _ => violations_eq_of_budget_le hlisted hroot hrooted hstraight

/-- Matching ends among places of one scope, if it comes from each, at one value, to earlier ones only. -/
lemma ends_of_listed {places : List Place} (hlisted : m.document.Listed)
    (hroot : m.document.root.WellFormed) (hstart : m.start ∈ places)
    (hclosed : ∀ met ∈ places, ∀ next ∈ m.successors met, next ∈ places)
    (hinner : ∀ met ∈ places, met.inner = m.document.rootScope)
    (hearlier : ∀ met ∈ places, ∀ next ∈ m.beside met, places.idxOf next < places.idxOf met)
    (value : Json) : m.Ends value :=
  ends_of_straight hlisted hroot
    (fun _ _ hleads => hinner _ (Graph.mem_of_leads hclosed hstart hleads))
    (straight_of_listed hstart hclosed hearlier) value

end Matcher

end SchemaAlgebra
