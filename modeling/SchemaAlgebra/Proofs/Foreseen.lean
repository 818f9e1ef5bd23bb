import SchemaAlgebra.Proofs.Observers

/-!
# What the check of names foresees

Two parts of compilation go over a document.  The check of names walks over all subschemas, and knows
them by the pointers that it makes on its way.  The plan follows only what a value can reach, but by
references too, of which it takes the pointers as they are written, and it may go in circles.  Both look
up the transforms of a schema in the record that is kept for its pointer.

So that no transform is missing in the plan once the check has passed, the plan has to come to subschemas
only, and to each by the pointer that the walk has for it.  It does if the references lead to such
pointers.

* `Outline.Reported` — the walk comes to a pointer.
* `Outline.stands_of_reported` — what is at that pointer is the subschema that the walk found there.
* `Plan.checkNames_foresees` — the plan comes to subschemas only, and all names in them are known.
-/

namespace SchemaAlgebra

namespace Outline

variable {document : Json} {pointer : Pointer} {keywords : Entries Json}

/-- The walk over a document comes to a pointer. -/
def Reported (document : Json) (pointer : Pointer) : Prop :=
  ∃ keywords, (pointer, keywords) ∈ document.subschemas

instance : Decidable (Reported document pointer) :=
  decidable_of_iff (pointer ∈ document.subschemas.map Prod.fst) (by simp [Reported])

/-- All references in subschemas of a document that are local to it lead to pointers that the walk over
it comes to. -/
def RefersToReported (document : Json) : Prop :=
  ∀ entry ∈ document.subschemas, ∀ target, Json.localTarget? entry.2 = some target →
    Reported document target

instance : Decidable (RefersToReported document) :=
  inferInstanceAs (Decidable (∀ entry ∈ document.subschemas, ∀ target ∈ Json.localTarget? entry.2,
    Reported document target))

/-- The subschema at a pointer that the walk comes to is the one that stands there. -/
lemma stands_of_reported (hwf : document.WellFormed) (h : Reported document pointer) :
    Stands document pointer := by
  obtain ⟨keywords, hmem⟩ := h
  obtain ⟨path, hholds, rfl⟩ := Json.mem_subschemas.1 hmem
  refine ⟨path, rfl, fun inner hinner => ?_⟩
  have hvalue : document.walk? path = some (.object inner) :=
    (Json.resolve?_join document "" path).symm.trans (resolve?_of_keywordsAt? hinner)
  obtain rfl := Json.object.inj (Option.some.inj ((hholds.walk? hwf).symm.trans hvalue))
  exact hholds

/-- **Every node is foreseen.**  A node that is an object is among the subschemas that the walk comes to,
under the same pointer. -/
lemma mem_subschemas_of_mem_nodes (hwf : document.WellFormed) (hrefs : RefersToReported document)
    (hpointer : pointer ∈ nodes document) (hkeywords : keywordsAt? document pointer = some keywords) :
    (pointer, keywords) ∈ document.subschemas := by
  have htargets : ∀ path inner, document.Holds path inner → ∀ target,
      Json.localTarget? inner = some target → Stands document target := by
    intro path inner hholds target htarget
    have hmem : (Pointer.join "" path, inner) ∈ document.subschemas :=
      Json.mem_subschemas.2 ⟨path, hholds, rfl⟩
    exact stands_of_reported hwf (hrefs _ hmem target htarget)
  obtain ⟨path, rfl, hholds⟩ := stands_of_mem_nodes htargets hpointer
  exact Json.mem_subschemas.2 ⟨path, hholds keywords hkeywords, rfl⟩

end Outline

namespace Plan

variable {schema : Fragment} {options : Options} {registry : Registry}

/-- **What the check of names foresees.**  If it passes, and all references that are local to the document
lead to pointers that the walk over it comes to, then

* no plan lacks a transform, whatever becomes of the matchers that it builds;
* every node that is an object is a subschema, which the walk comes to under the same pointer;
* so is every node of the plan that is compiled. -/
theorem checkNames_foresees (hwf : schema.json.WellFormed)
    (hchecked : schema.checkNames options registry = .ok ())
    (hrefs : Outline.RefersToReported schema.json) (build : MatcherBuilder) :
    (∀ name pointer, compile build schema options ≠ .error (.unknownTransform name pointer))
    ∧ (∀ pointer ∈ Outline.nodes schema.json, ∀ keywords,
        Outline.keywordsAt? schema.json pointer = some keywords →
          (pointer, keywords) ∈ schema.json.subschemas)
    ∧ ∀ plan, compile build schema options = .ok plan → ∀ node ∈ plan.nodes, ∀ keywords,
        Outline.keywordsAt? schema.json node.outline.pointer = some keywords →
          (node.outline.pointer, keywords) ∈ schema.json.subschemas := by
  have hnodes : ∀ pointer ∈ Outline.nodes schema.json, ∀ keywords,
      Outline.keywordsAt? schema.json pointer = some keywords →
        (pointer, keywords) ∈ schema.json.subschemas := fun pointer hpointer keywords =>
    Outline.mem_subschemas_of_mem_nodes hwf hrefs hpointer
  refine ⟨fun name pointer herror => ?_, hnodes, fun plan hplan node hnode => ?_⟩
  · refine compile_ne_unknown_of_chains (fun at_ hat error => ?_) herror trivial
    exact chainAt_ne_unknown_of_checked fun keywords hkeywords =>
      Fragment.checkTransforms_of_checkNames hchecked (hnodes at_ hat keywords hkeywords)
  · obtain ⟨pointer, hpointer, hcompiled⟩ := (compile_ok hplan).2.2 node hnode
    rw [hcompiled.pointer_eq]
    exact hnodes pointer hpointer

/-- A schema of trees that refer to themselves and to the root. -/
def treeSchema : Fragment where
  keywords :=
    [("definitions", .object [("tree", .object
      [("additionalProperties", .object [("$ref", .string "#/definitions/tree")]),
        ("allOf", .array [.object [("$ref", .string "#")]]), ("transform", .array [.string "t"])])]),
      ("properties", .object [("a/b", .object [("$ref", .string "#/definitions/tree")])]),
      ("transform", .array [.string "t"])]

/-- The plan of the schema has a node for each reference and for each place that one leads to. -/
theorem treeSchema_foreseen :
    treeSchema.json.WellFormed
    ∧ treeSchema.checkNames (Validator.tattleOptions "t") {} = .ok ()
    ∧ Outline.RefersToReported treeSchema.json
    ∧ Outline.nodes treeSchema.json = ["", "/properties/a~1b", "/definitions/tree",
        "/definitions/tree/additionalProperties", "/definitions/tree/allOf/0"]
    ∧ ∀ build : MatcherBuilder,
      (∀ name pointer, compile build treeSchema (Validator.tattleOptions "t")
        ≠ .error (.unknownTransform name pointer))
      ∧ (∀ pointer ∈ Outline.nodes treeSchema.json, ∀ keywords,
          Outline.keywordsAt? treeSchema.json pointer = some keywords →
            (pointer, keywords) ∈ treeSchema.json.subschemas)
      ∧ ∀ plan, compile build treeSchema (Validator.tattleOptions "t") = .ok plan →
        ∀ node ∈ plan.nodes, ∀ keywords,
          Outline.keywordsAt? treeSchema.json node.outline.pointer = some keywords →
            (node.outline.pointer, keywords) ∈ treeSchema.json.subschemas := by
  have hwf : treeSchema.json.WellFormed := by decide +kernel
  have hchecked : treeSchema.checkNames (Validator.tattleOptions "t") {} = .ok () := by
    decide +kernel
  have hrefs : Outline.RefersToReported treeSchema.json := by decide +kernel
  exact ⟨hwf, hchecked, hrefs, by decide +kernel, checkNames_foresees hwf hchecked hrefs⟩

end Plan

end SchemaAlgebra
