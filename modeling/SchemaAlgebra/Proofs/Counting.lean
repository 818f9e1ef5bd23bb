import Mathlib.Data.Finset.Card
import SchemaAlgebra.Proofs.Chains

/-!
# How many properties are present

A presence keyword demands something of a set: of the properties that are listed, or that are declared
beside `allRequired`, those that an object has.  Counted are the entries of the list, so that a property
listed twice counts twice.  To demand all properties, some or none this makes no difference, but exactly
one it is only if it is listed once.

* `Presence.Demands` — what a rule demands of the set.
* **`Presence.allows_iff_demands`** — what the keyword allows, and when this is what the rule demands.
* `Presence.one_listed_twice_refused` — a list that names a property twice refuses an object with just
  this property.
-/

namespace SchemaAlgebra

namespace Entries

/-- The properties among those listed that an object has, each once. -/
def present (names : List String) (members : Entries Json) : Finset String :=
  (names.filter fun name => contains name members).toFinset

lemma mem_present {names : List String} {members : Entries Json} {name : String} :
    name ∈ present names members ↔ name ∈ names ∧ contains name members = true := by
  rw [present, List.mem_toFinset, List.mem_filter]

lemma count_filter_contains {name : String} {members : Entries Json} (names : List String)
    (h : contains name members = true) :
    (names.filter fun name => contains name members).count name = names.count name :=
  List.count_filter (p := fun name => contains name members) h

lemma present_congr {names others : List String} (h : ∀ name, name ∈ others ↔ name ∈ names)
    (members : Entries Json) : present others members = present names members := by
  ext name
  rw [mem_present, mem_present, h]

end Entries

namespace Presence

open Entries (present)
open Fragment (stringArray)

variable {rule : Presence} {names others : List String} {siblings members : Entries Json}

/-! ## Rules -/

/-- **What a rule demands** of the properties in question and the members of an object. -/
def Demands (rule : Presence) (names : List String) (members : Entries Json) : Prop :=
  match rule with
  | all => ∀ name ∈ names, Entries.contains name members = true
  | any => (present names members).Nonempty
  | one => (present names members).card = 1
  | none => present names members = ∅

/-- Properties that are present are listed once. -/
def ListsOnce (names : List String) (members : Entries Json) : Prop :=
  ∀ name ∈ present names members, names.count name = 1

lemma listsOnce_iff_nodup :
    ListsOnce names members ↔ (names.filter fun name => Entries.contains name members).Nodup := by
  rw [List.nodup_iff_count_le_one]
  constructor
  · intro h name
    by_cases hname : name ∈ present names members
    · rw [Entries.count_filter_contains names (Entries.mem_present.1 hname).2, h name hname]
    · rw [present, List.mem_toFinset] at hname
      rw [List.count_eq_zero_of_not_mem hname]
      exact Nat.zero_le 1
  · intro h name hname
    obtain ⟨hlisted, hcontains⟩ := Entries.mem_present.1 hname
    have hle := h name
    rw [Entries.count_filter_contains names hcontains] at hle
    exact Nat.le_antisymm hle (List.count_pos_iff.2 hlisted)

/-- The entries that are present number one if they are of one property, listed once. -/
lemma countP_eq_one_iff : names.countP (fun name => Entries.contains name members) = 1
    ↔ (present names members).card = 1 ∧ ListsOnce names members := by
  rw [listsOnce_iff_nodup, List.countP_eq_length_filter, present]
  constructor
  · intro h
    obtain ⟨name, hname⟩ := List.length_eq_one_iff.1 h
    rw [hname]
    exact ⟨rfl, List.nodup_singleton name⟩
  · rintro ⟨hcard, hnodup⟩
    rwa [List.toFinset_card_of_nodup hnodup] at hcard

/-- **What is counted** meets a rule if the properties that are present do, each listed once if there
is to be exactly one. -/
lemma admits_iff : rule.admits (names.countP fun name => Entries.contains name members) names.length = true
    ↔ rule.Demands names members ∧ (rule = .one → ListsOnce names members) := by
  cases rule with
  | all => simp [admits, Demands, List.countP_eq_length]
  | any =>
    simp only [admits, Demands, decide_eq_true_eq, reduceCtorEq, false_implies, and_true]
    rw [Nat.one_le_iff_ne_zero, ← Nat.pos_iff_ne_zero, List.countP_pos_iff, Finset.Nonempty]
    simp only [Entries.mem_present]
  | one =>
    simp only [admits, Demands, beq_iff_eq, forall_const]
    exact countP_eq_one_iff
  | none =>
    simp only [admits, Demands, beq_iff_eq, reduceCtorEq, false_implies, and_true]
    rw [List.countP_eq_zero, Finset.eq_empty_iff_forall_notMem]
    simp only [Entries.mem_present, not_and]

lemma demands_congr (h : ∀ name, name ∈ others ↔ name ∈ names) :
    rule.Demands others members ↔ rule.Demands names members := by
  cases rule with
  | all => simp only [Demands, h]
  | any | one | none => simp only [Demands, Entries.present_congr h]

lemma listsOnce_of_perm (h : others.Perm names) :
    ListsOnce others members ↔ ListsOnce names members := by
  simp only [ListsOnce, Entries.present_congr fun _ => h.mem_iff, h.count_eq]

/-- Where exactly one property is present, it is to be listed once. -/
lemma listsOnce_of_demands_iff : (one.Demands names members → ListsOnce names members)
    ↔ ∀ name, present names members = {name} → names.count name = 1 := by
  simp only [Demands, Finset.card_eq_one, forall_exists_index]
  refine forall_congr' fun name => forall_congr' fun hone => ?_
  simp only [ListsOnce, hone, Finset.mem_singleton, forall_eq]

/-! ## Keywords -/

/-- The argument that states a rule about listed properties; `allRequired` is only switched on. -/
def argument (rule : Presence) (names : List String) : Json :=
  match rule with
  | all => .bool true
  | _ => stringArray names

/-- The properties in question: those declared beside `allRequired`, else those listed. -/
def subjects (rule : Presence) (siblings : Entries Json) (names : List String) : List String :=
  match rule with
  | all => Assertion.declaredNames siblings
  | _ => names

lemma keyword_injective {other : Presence} (h : rule.keyword = other.keyword) : rule = other := by
  cases rule <;> cases other <;> first | rfl | exact absurd h (by decide)

/-- An extension in effect is found by its keyword. -/
lemma find?_keyword {extensions : List Extension} (h : Extension.presence rule ∈ extensions) :
    extensions.find? (fun extension => extension.name = rule.keyword) = some (.presence rule) := by
  cases hfound : extensions.find? fun extension => extension.name = rule.keyword with
  | none =>
    have hnone := List.find?_eq_none.1 hfound _ h
    exact absurd (decide_eq_true (Eq.refl rule.keyword)) hnone
  | some found =>
    have hname : found.name = rule.keyword := by simpa using List.find?_some hfound
    cases found with
    | typeOf => exact absurd hname (by cases rule <;> decide)
    | presence other => rw [keyword_injective hname]

lemma readPresence_argument (hlisted : names ≠ []) :
    Assertion.readPresence siblings rule (rule.argument names)
      = .ok (.presence rule (rule.subjects siblings names)) := by
  obtain ⟨name, rest, rfl⟩ := List.exists_cons_of_ne_nil hlisted
  have hnames : namesOfItems? (.string name :: rest.map .string) = some (name :: rest) :=
    Matcher.namesOfItems?_strings (name :: rest)
  cases rule <;>
    simp [argument, stringArray, Assertion.readPresence, hnames, subjects]

section

variable {m : Matcher} (henabled : Extension.presence rule ∈ m.extensions) (hlisted : names ≠ [])
  (judge : Judge) (scope : Scope) (siblings members : Entries Json)

include henabled hlisted

lemma allows_iff : m.Allows judge scope siblings (rule.keyword, rule.argument names) (.object members)
    ↔ rule.Demands (rule.subjects siblings names) members
      ∧ (rule = .one → ListsOnce names members) := by
  have hread : Assertion.read? m.registry m.extensions siblings rule.keyword (rule.argument names)
      = some (.ok (.presence rule (rule.subjects siblings names))) := by
    have hinstance : rule.keyword ≠ "instanceOf" := by cases rule <;> decide
    have htransform : rule.keyword ≠ "transform" := by cases rule <;> decide
    rw [Assertion.read?, if_neg hinstance, if_neg htransform, find?_keyword henabled, Option.map_some]
    exact congrArg some (readPresence_argument hlisted)
  have hsubjects : rule = .one → rule.subjects siblings names = names := by
    rintro rfl
    rfl
  simp only [Matcher.Allows, Matcher.keywordViolations, hread]
  rw [Matcher.require_eq_nil, Assertion.holds, admits_iff]
  exact and_congr_right fun _ => forall_congr' fun hone => by rw [hsubjects hone]

/-- **Presence keywords.**  A keyword that is in effect allows an object exactly if its rule demands no
more, and if besides, where exactly one property is demanded, the properties that are present are
listed once; so it allows what the rule demands exactly if no property that is the only one present is
listed more than once.  The order of the list does not matter, and neither do repetitions for another
rule. -/
theorem allows_iff_demands :
    (m.Allows judge scope siblings (rule.keyword, rule.argument names) (.object members)
        ↔ rule.Demands (rule.subjects siblings names) members
          ∧ (rule = .one → ListsOnce names members))
      ∧ ((m.Allows judge scope siblings (rule.keyword, rule.argument names) (.object members)
          ↔ rule.Demands (rule.subjects siblings names) members)
        ↔ (rule = .one → ∀ name, present names members = {name} → names.count name = 1))
      ∧ (∀ others, List.Perm others names →
        (m.Allows judge scope siblings (rule.keyword, rule.argument others) (.object members)
          ↔ m.Allows judge scope siblings (rule.keyword, rule.argument names) (.object members)))
      ∧ (rule ≠ .one → ∀ others, (∀ name, name ∈ others ↔ name ∈ names) →
        (m.Allows judge scope siblings (rule.keyword, rule.argument others) (.object members)
          ↔ m.Allows judge scope siblings (rule.keyword, rule.argument names) (.object members))) := by
  have hallows := fun (others : List String) (hothers : others ≠ []) =>
    allows_iff henabled hothers judge scope siblings members
  have hnonempty : ∀ others : List String, (∀ name, name ∈ others ↔ name ∈ names) → others ≠ [] := by
    rintro others hmem rfl
    exact hlisted (List.eq_nil_iff_forall_not_mem.2 fun name hname => by simpa using (hmem name).2 hname)
  have hsubjects : ∀ others : List String, (∀ name, name ∈ others ↔ name ∈ names) →
      (rule.Demands (rule.subjects siblings others) members
        ↔ rule.Demands (rule.subjects siblings names) members) := by
    intro others hmem
    cases rule with
    | all => exact Iff.rfl
    | any | one | none => exact demands_congr hmem
  refine ⟨hallows names hlisted, ?_, fun others hperm => ?_, fun hrule others hmem => ?_⟩
  · rw [hallows names hlisted, and_iff_left_iff_imp]
    by_cases hone : rule = .one
    · subst hone
      simp only [forall_const]
      exact listsOnce_of_demands_iff
    · simp [hone]
  · have hmem : ∀ name, name ∈ others ↔ name ∈ names := fun _ => hperm.mem_iff
    rw [hallows others (hnonempty others hmem), hallows names hlisted, hsubjects others hmem,
      listsOnce_of_perm hperm]
  · rw [hallows others (hnonempty others hmem), hallows names hlisted, hsubjects others hmem]
    simp [hrule]

end

/-- An object with a member `a`. -/
def objectOfA : Entries Json := [("a", .number (.int 1))]

/-- A matcher that knows all extensions. -/
def knowsAll : Matcher := { document := .ofJson .draft7 (.object []), extensions := Extension.all }

/-- Exactly one of `a` and `b` is present, so both orders of the list allow the object; exactly one of
`a` and `a` is present as well, and the list refuses it. -/
theorem oneRequired_counts_entries :
    knowsAll.Allows (knowsAll.judge 1) knowsAll.document.scope [] ("oneRequired", stringArray ["a", "b"])
        (.object objectOfA)
      ∧ knowsAll.Allows (knowsAll.judge 1) knowsAll.document.scope []
        ("oneRequired", stringArray ["b", "a"]) (.object objectOfA)
      ∧ ¬ knowsAll.Allows (knowsAll.judge 1) knowsAll.document.scope []
        ("oneRequired", stringArray ["a", "a"]) (.object objectOfA) := by
  have henabled : Extension.presence .one ∈ knowsAll.extensions := by decide
  have hpresent : present ["a", "b"] objectOfA = {"a"} := by decide +kernel
  have hpair := allows_iff_demands henabled (List.cons_ne_nil "a" ["b"])
    (knowsAll.judge 1) knowsAll.document.scope [] objectOfA
  have htwice := allows_iff_demands henabled (List.cons_ne_nil "a" ["a"])
    (knowsAll.judge 1) knowsAll.document.scope [] objectOfA
  have hallows : knowsAll.Allows (knowsAll.judge 1) knowsAll.document.scope []
      ("oneRequired", stringArray ["a", "b"]) (.object objectOfA) := by
    refine hpair.1.2 ⟨?_, fun _ name hname => ?_⟩
    · exact Finset.card_eq_one.2 ⟨"a", hpresent⟩
    · rw [hpresent, Finset.mem_singleton] at hname
      subst hname
      decide
  refine ⟨hallows, (hpair.2.2.1 ["b", "a"] (by decide)).2 hallows, fun h => ?_⟩
  have honce := (htwice.1.1 h).2 rfl "a" (Entries.mem_present.2 (by decide))
  exact absurd honce (by decide)

/-- The schema that demands exactly one of `a` and `a`. -/
def oneOfAandA : Fragment :=
  { keywords := [("oneRequired", stringArray ["a", "a"])] }

/-- A schema that lists a property twice refuses an object that has it, though exactly one of the
properties listed is present. -/
theorem one_listed_twice_refused :
    ∃ validator, Validator.compile oneOfAandA (some { keywords := ["oneRequired"] }) = .ok validator
      ∧ validator.matcher.accepts (.object objectOfA) = false
      ∧ (present ["a", "a"] objectOfA).card = 1 := by
  obtain ⟨validator, hvalidator⟩ : ∃ validator,
      Validator.compile oneOfAandA (some { keywords := ["oneRequired"] }) = .ok validator :=
    exists_of_isOk (by decide +kernel)
  obtain ⟨extensions, hcompiles, hmatcher, -⟩ := Fragment.compiled_parts hvalidator
  have hextensions : extensions = [.typeOf, .presence .one] :=
    (Except.ok.inj hcompiles.resolve).symm
  refine ⟨validator, hvalidator, ?_, by decide +kernel⟩
  rw [hmatcher, hextensions]
  decide +kernel

end Presence

end SchemaAlgebra
