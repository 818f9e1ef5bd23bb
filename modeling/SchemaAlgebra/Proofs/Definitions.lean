import SchemaAlgebra.Proofs.Carried

/-!
# References to definitions

The envelope of a document keeps a definition under its name, and the pointer to it has the name
escaped.  A reference has the name as it is.  The two agree on names without tilde and slash.

* `Pointer.escape_eq_self_iff` — which tokens are written as they are.
* `Fragment.resolve?_definition`, `Fragment.recordAt?_definition` — what stands at the pointer to a
  definition.
* **`Fragment.reference_leads_iff`** — a reference leads to the definition of its name, and to the
  record of it, just if the name has neither tilde nor slash.
-/

namespace SchemaAlgebra

/-! ## Names that need no escape -/

namespace Pointer

/-- A token in which nothing is to be escaped. -/
def IsBare (token : String) : Prop :=
  '~' ∉ token.toList ∧ '/' ∉ token.toList

instance (token : String) : Decidable (IsBare token) :=
  inferInstanceAs (Decidable (_ ∧ _))

lemma length_le_escapeChars (cs : List Char) : cs.length ≤ (escapeChars cs).length := by
  induction cs with
  | nil => exact Nat.le_refl _
  | cons c cs ih =>
    by_cases htilde : c = '~'
    · subst htilde
      simp only [escapeChars, List.length_cons]
      omega
    · by_cases hslash : c = '/'
      · subst hslash
        simp only [escapeChars, List.length_cons]
        omega
      · rw [escapeChars_cons htilde hslash]
        exact Nat.succ_le_succ ih

lemma escapeChars_eq_self_iff {cs : List Char} : escapeChars cs = cs ↔ '~' ∉ cs ∧ '/' ∉ cs := by
  induction cs with
  | nil => simp [escapeChars]
  | cons c cs ih =>
    by_cases htilde : c = '~'
    · subst htilde
      refine iff_of_false (fun heq => ?_) (by simp)
      -- an escaped tilde is longer than what it stands for
      have hlength := congrArg List.length heq
      have hle := length_le_escapeChars cs
      simp only [escapeChars, List.length_cons] at hlength
      omega
    · by_cases hslash : c = '/'
      · subst hslash
        exact iff_of_false (by simp [escapeChars]) (by simp)
      · rw [escapeChars_cons htilde hslash, List.cons.injEq, ih]
        simp [Ne.symm htilde, Ne.symm hslash]

/-- **Bare tokens** are those that are written as they are. -/
lemma escape_eq_self_iff {token : String} : escape token = token ↔ IsBare token := by
  rw [escape, ← String.toList_inj, String.toList_ofList, escapeChars_eq_self_iff, IsBare]

end Pointer

/-! ## Definitions of an envelope -/

namespace Fragment

/-- The pointer to the definition called `name`. -/
def definitionPointer (name : String) : Pointer :=
  Pointer.join "" ["definitions", name]

lemma definitionPointer_eq (name : String) :
    definitionPointer name = "/definitions/" ++ Pointer.escape name := by
  have hescape : Pointer.escape "definitions" = "definitions" := by decide
  have hjoin : definitionPointer name
      = "" ++ "/" ++ Pointer.escape "definitions" ++ "/" ++ Pointer.escape name := rfl
  rw [hjoin, hescape]
  rfl

/-- Where a reference to a definition leads. -/
lemma localTarget?_reference (name : String) :
    Json.localTarget? (reference name).keywords = some ("/definitions/" ++ name) := by
  have hkeywords : (reference name).keywords = [("$ref", .string ("#/definitions/" ++ name))] := rfl
  have htext : ("#/definitions/" ++ name).toList = '#' :: ("/definitions/" ++ name).toList := by
    rw [String.toList_append, String.toList_append]
    rfl
  rw [hkeywords, Json.localTarget?, Entries.lookup_cons_self]
  simp only [Option.bind_eq_bind, Option.bind_some, Json.string?, Option.map_some, htext,
    String.ofList_toList]

variable {idBase title : String} {definitions : List (String × Fragment)}
  {definition : String × Fragment}

lemma resolve?_definition (hnodup : (definitions.map Prod.fst).Nodup) (hmem : definition ∈ definitions) :
    (baseSchema idBase title definitions).json.resolve? (definitionPointer definition.1)
      = some definition.2.json := by
  rw [definitionPointer, Json.resolve?_join]
  refine (walk?_withChildren _ "definitions" definitions definition.1 []).trans ?_
  rw [Entries.lookup_reverse hnodup, (Entries.lookup_eq_some_iff hnodup).2 hmem]
  rfl

/-- A definition keeps its filled records. -/
lemma recordAt?_definition (hplaced : ∀ child ∈ definitions, child.2.WellPlaced)
    (hnodup : (definitions.map Prod.fst).Nodup) (hmem : definition ∈ definitions) (path : List String) :
    (baseSchema idBase title definitions).recordAt?
        (definitionPointer definition.1 ++ Pointer.join "" path) = definition.2.filledAt? path := by
  rw [definitionPointer, ← Pointer.join_root_append]
  exact (recordAt?_withChildren hplaced definition.1 path).trans (adoptedAt?_of_mem hnodup hmem path)

/-- A reference to a definition is followed to its pointer, and the functions that the definition
carries are found there. -/
lemma reference_finds_transforms (hplaced : ∀ child ∈ definitions, child.2.WellPlaced)
    (hnodup : (definitions.map Prod.fst).Nodup) (hmem : definition ∈ definitions)
    (hbare : Pointer.IsBare definition.1) {pointer : Pointer}
    (hpointer : (baseSchema idBase title definitions).json.resolve? pointer
      = some (reference definition.1).json) :
    (Outline.read (baseSchema idBase title definitions).json pointer).reference
        = some (definitionPointer definition.1)
      ∧ ∀ options name, Plan.transform? (baseSchema idBase title definitions) options
          (definitionPointer definition.1) name = (options.transforms.lookup name).or
            (definition.2.transforms?.bind fun table => table.lookup name) := by
  have hkeywords : Outline.keywordsAt? (baseSchema idBase title definitions).json pointer
      = some (reference definition.1).keywords := by
    rw [Outline.keywordsAt?, hpointer]
    rfl
  have htarget : "/definitions/" ++ definition.1 = definitionPointer definition.1 := by
    rw [definitionPointer_eq, Pointer.escape_eq_self_iff.2 hbare]
  constructor
  · rw [Outline.read, hkeywords]
    change (Json.localTarget? (reference definition.1).keywords).filter _ = _
    rw [localTarget?_reference, htarget]
    exact Option.filter_eq_some_iff.2 ⟨rfl, by rw [resolve?_definition hnodup hmem]; rfl⟩
  · intro options name
    have hrecord : (baseSchema idBase title definitions).recordAt?
        (definitionPointer definition.1 ++ Pointer.join "" []) = definition.2.filledAt? [] :=
      recordAt?_definition hplaced hnodup hmem []
    rw [show Pointer.join "" [] = "" from rfl, String.append_empty] at hrecord
    rw [Plan.transform?, hrecord, filledAt?, transforms_filter_isEmpty]
    rfl

/-- **References to definitions.**  A definition stands at its pointer with all its records.  The text
that a reference has leads to the definition by that very pointer just if nothing in the name is to be
escaped; then a plan finds there the functions that the definition carries. -/
theorem reference_leads_iff (idBase title : String)
    (hplaced : ∀ child ∈ definitions, child.2.WellPlaced)
    (hnodup : (definitions.map Prod.fst).Nodup) (hmem : definition ∈ definitions) :
    let base := baseSchema idBase title definitions
    let place := definitionPointer definition.1
    ∃ target, Json.localTarget? (reference definition.1).keywords = some target
      ∧ base.json.resolve? place = some definition.2.json
      ∧ (∀ path, base.recordAt? (place ++ Pointer.join "" path) = definition.2.filledAt? path)
      ∧ (base.json.resolve? target = some definition.2.json ∧ target = place
        ↔ Pointer.IsBare definition.1)
      ∧ (Pointer.IsBare definition.1 → ∀ pointer,
        base.json.resolve? pointer = some (reference definition.1).json →
          (Outline.read base.json pointer).reference = some target
          ∧ ∀ options name, Plan.transform? base options target name
            = (options.transforms.lookup name).or
              (definition.2.transforms?.bind fun table => table.lookup name)) := by
  intro base place
  have hresolve : base.json.resolve? place = some definition.2.json := resolve?_definition hnodup hmem
  have htarget : "/definitions/" ++ definition.1 = place ↔ Pointer.IsBare definition.1 := by
    rw [← Pointer.escape_eq_self_iff, show place = _ from definitionPointer_eq _, String.append_right_inj,
      eq_comm]
  refine ⟨_, localTarget?_reference _, hresolve, recordAt?_definition hplaced hnodup hmem, ?_,
    fun hbare pointer hpointer => ?_⟩
  · rw [← htarget]
    exact ⟨And.right, fun heq => ⟨heq ▸ hresolve, heq⟩⟩
  · rw [htarget.2 hbare]
    exact reference_finds_transforms hplaced hnodup hmem hbare hpointer

/-- Texts with a transform that they carry. -/
def carryingText : Fragment where
  keywords := [("transform", .array [.string "f"]), ("type", .string "string")]
  records := Table.ofPairs
    [("", { transforms := some (Table.ofPairs [("f", Transform.ofFunction .ok)]) })]

/-- A definition under a name, and another one that refers to it. -/
def referredTo (name : String) : List (String × Fragment) :=
  [(name, carryingText), ("again", reference name)]

/-- A reference to `text` leads to the definition and to the function that it carries. -/
theorem reference_leads_to_text :
    (Outline.read (baseSchema defaultIdBase "note" (referredTo "text")).json
        "/definitions/again").reference = some "/definitions/text"
      ∧ Plan.transform? (baseSchema defaultIdBase "note" (referredTo "text")) {} "/definitions/text" "f"
        = some (Transform.ofFunction .ok) := by
  obtain ⟨target, htarget, -, -, -, hfinds⟩ := @reference_leads_iff (referredTo "text")
    ("text", carryingText) defaultIdBase "note" (by decide) (by decide) List.mem_cons_self
  obtain rfl : "/definitions/text" = target := Option.some.inj htarget
  obtain ⟨hreference, htransform⟩ := hfinds (by decide) "/definitions/again" (by decide)
  exact ⟨hreference, (htransform {} "f").trans rfl⟩

/-- A reference to `a/b` leads nowhere; one to `a~b` leads to the definition, but not to what the
definition carries. -/
theorem reference_misses_definition :
    (∃ target, Json.localTarget? (reference "a/b").keywords = some target
        ∧ (baseSchema defaultIdBase "note" (referredTo "a/b")).json.resolve? target = none)
      ∧ ∃ target, Json.localTarget? (reference "a~b").keywords = some target
        ∧ (baseSchema defaultIdBase "note" (referredTo "a~b")).json.resolve? target
          = some carryingText.json
        ∧ (baseSchema defaultIdBase "note" (referredTo "a~b")).transformsOn ["definitions", "a~b"]
          = carryingText.transforms?
        ∧ transformsIn (baseSchema defaultIdBase "note" (referredTo "a~b")).records target = none :=
  ⟨⟨"/definitions/a/b", by decide, by decide⟩, "/definitions/a~b", by decide, by decide, rfl, rfl⟩

end Fragment

end SchemaAlgebra
