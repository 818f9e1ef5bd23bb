import Mathlib.Data.List.Count
import SchemaAlgebra.Proofs.Children
import SchemaAlgebra.Proofs.Repetitions

/-!
# Declared and required properties

A schema of objects declares properties, each by a schema under its name, and requires some names.  Two
operations are described by what their results declare and require:

* **`Fragment.removeProperty_removes`** — removing properties leaves the others as they are.
* **`Fragment.objects_declare_iff`** — of schemas that an object is given under one name, the last one is
  declared.  The name is required, and records are found beneath it, for the others as well: the object
  is as if only the last one had been given just if the others ask for no more
  (`Fragment.Overrides`).

A schema taken out and put back loses its empty records, and a schema merged loses the keywords that
are `null` (`Fragment.removal_loses`); what a property that is declared as `true` or `false` becomes is left
open here.
-/

namespace SchemaAlgebra

namespace Fragment

variable {f g : Fragment} {name keyword : String} {names : List String}
  {properties : List (String × Fragment)}

/-- The schema that is declared for a property. -/
def property? (f : Fragment) (name : String) : Option Json :=
  (f.get? "properties").bind (Json.member? name)

lemma property?_congr (h : g.get? "properties" = f.get? "properties") (name : String) :
    g.property? name = f.property? name :=
  congrArg (Option.bind · _) h

/-- A property that is declared as an object is taken out as that. -/
lemma json_property (f : Fragment) (name : String) :
    (Entries.lookup name (f.children "properties")).map json
      = (f.property? name).filter Json.isObject :=
  json_child f "properties" name

lemma json_property_of_isObject (h : ∀ schema, f.property? name = some schema → schema.isObject = true) :
    (Entries.lookup name (f.children "properties")).map json = f.property? name := by
  rw [json_property]
  cases hproperty : f.property? name with
  | none => rfl
  | some schema => exact Option.filter_some_pos (h schema hproperty)

/-- A property is declared by what was put in last under its name. -/
lemma property?_withChildren (f : Fragment) (properties : List (String × Fragment)) (name : String) :
    (f.withChildren "properties" properties).property? name
      = (Entries.lookup name properties.reverse).map json := by
  rw [property?, get?_withChildren, Option.bind_some, Json.member?, lookup_documents]

lemma get?_withKeyword_of_ne {other : String} (h : other ≠ keyword) (value : Json) :
    (f.withKeyword other value).get? keyword = f.get? keyword :=
  Entries.lookup_insert_of_ne h value f.keywords

lemma get?_withChildren_of_ne {other : String} (h : other ≠ keyword)
    (children : List (String × Fragment)) :
    (f.withChildren other children).get? keyword = f.get? keyword :=
  Entries.lookup_insert_of_ne h _ f.keywords

lemma get?_withRequired_of_ne (h : keyword ≠ "required") (required : List Json) :
    (f.withRequired required).get? keyword = f.get? keyword :=
  lookup_withRequired_keywords h required

/-- The schema with these properties, some of them required. -/
def declaring (f : Fragment) (properties : List (String × Fragment)) (required : List Json) : Fragment :=
  (f.withChildren "properties" properties).withRequired required

lemma get?_declaring (h : keyword ≠ "required") (required : List Json) :
    (f.declaring properties required).get? keyword
      = (f.withChildren "properties" properties).get? keyword :=
  get?_withRequired_of_ne h required

lemma get?_declaring_required (f : Fragment) (properties : List (String × Fragment))
    (required : List Json) : (f.declaring properties required).get? "required"
      = (Json.array required).nonEmpty? := by
  cases required with
  | nil => exact Document.lookup_erase_self _ _
  | cons name names => exact Entries.lookup_insert_self _ _ _

lemma property?_declaring (f : Fragment) (properties : List (String × Fragment)) (required : List Json)
    (name : String) : (f.declaring properties required).property? name
      = (Entries.lookup name properties.reverse).map json :=
  (property?_congr (get?_declaring (by decide) required) name).trans
    (property?_withChildren f properties name)

lemma at?_declaring (f : Fragment) (properties : List (String × Fragment)) (required : List Json)
    (name : String) : (f.declaring properties required).at? ["properties", name]
      = (f.withChildren "properties" properties).at? ["properties", name] :=
  at?_withRequired (by decide) required _

/-- What an object declares and requires. -/
lemma openObject_eq_declaring (properties : List (String × Fragment)) : openObject properties
    = (ofType (.name "object")).declaring properties
      ((requiredNames properties).eraseDups.map .string) :=
  openObject_eq properties

/-! ## Removing properties -/

/-- The properties that stay when some are removed. -/
def keptProperties (f : Fragment) (names : List String) : List (String × Fragment) :=
  (f.children "properties").filter fun child => !names.contains child.1

lemma lookup_keptProperties (f : Fragment) (names : List String) (name : String) :
    Entries.lookup name (f.keptProperties names)
      = if name ∈ names then none else Entries.lookup name (f.children "properties") := by
  refine (Entries.lookup_filter (fun name => !names.contains name) _).trans ?_
  by_cases hname : name ∈ names <;> simp [hname]

lemma removeProperty_eq_ok {required : Json} (hrequired : f.get? "required" = some required)
    (hnull : required.isNull = false) (names : List String) : f.removeProperty names
      = .ok (((merged [f]).withChildren "properties" (f.keptProperties names)).withKeyword "required"
        (.array (f.requiredSeq.filter fun item => !isNameIn names item))) := by
  have hseq : f.requiredSeq = required.seq := by rw [requiredSeq, hrequired, Option.getD_some]
  rw [removeProperty, hrequired, hseq]
  cases required with
  | null => simp [Json.isNull] at hnull
  | _ => rfl

lemma not_isNameIn (names : List String) :
    (fun item => !isNameIn names item) = fun item => decide (item ∉ names.map Json.string) := by
  funext item
  cases item <;> simp [isNameIn]

/-- **Removal.**  A schema that says what it requires, and declares properties, loses the properties that
are listed.  The others keep their schemas and records, and what is required its order; no other keyword
changes.  Empty records are not carried along, and `null` does not count as a keyword. -/
theorem removeProperty_removes {required : Json} {declared : Entries Json} (hwf : f.json.WellFormed)
    (hrequired : f.get? "required" = some required) (hnull : required.isNull = false)
    (hdeclared : f.get? "properties" = some (.object declared)) (names : List String) :
    ∃ out, f.removeProperty names = .ok out
      ∧ (∃ kept, out.get? "properties" = some (.object kept))
      ∧ (∀ name, (∀ schema, f.property? name = some schema → schema.isObject = true) →
          out.property? name = if name ∈ names then none else f.property? name)
      ∧ (∀ name, out.at? ["properties", name]
          = if name ∈ names then none else (f.at? ["properties", name]).map filled)
      ∧ out.get? "required"
          = some (.array (f.requiredSeq.filter fun item => item ∉ names.map .string))
      ∧ ∀ keyword, keyword ≠ "properties" → keyword ≠ "required" →
          out.get? keyword = (f.get? keyword).filter fun value => !value.isNull := by
  have hnodup : ((f.keptProperties names).map Prod.fst).Nodup :=
    (nodup_children hwf "properties").sublist (List.filter_sublist.map _)
  have hplaced : ∀ child ∈ f.keptProperties names, child.2.WellPlaced := fun child hchild =>
    wellPlaced_of_mem_children (List.mem_filter.1 hchild).1
  have hproperties : ∀ value, (((merged [f]).withChildren "properties"
      (f.keptProperties names)).withKeyword "required" value).get? "properties" = _ := fun value =>
    (get?_withKeyword_of_ne (by decide) value).trans (get?_withChildren _ _ _)
  refine ⟨_, removeProperty_eq_ok hrequired hnull names, ⟨_, hproperties _⟩, fun name hobject => ?_,
    fun name => ?_, ?_, fun keyword hkeyword hother => ?_⟩
  · rw [property?_congr (get?_withKeyword_of_ne (by decide) _), property?_withChildren,
      Entries.lookup_reverse hnodup, lookup_keptProperties, apply_ite (Option.map json), Option.map_none,
      json_property_of_isObject hobject]
  · rw [at?_withKeyword (by decide), at?_withChildren _ _ hnodup hplaced, lookup_keptProperties,
      lookup_children hdeclared]
    split <;> rfl
  · rw [← not_isNameIn]
    exact Entries.lookup_insert_self _ _ _
  · rw [get?_withKeyword_of_ne hother.symm, get?_withChildren_of_ne hkeyword.symm]
    exact lookup_merged_keywords hwf.1 keyword

/-- What is said of a person, whose age is looked after elsewhere. -/
def person : Fragment :=
  openObject [("age", (ofType (.name "integer")).optional), ("name", ofType (.name "string")),
    ("phone", ofType (.name "string"))]

/-- Without the phone number. -/
theorem person_without_phone : ∃ out, person.removeProperty ["phone"] = .ok out
    ∧ out.property? "phone" = none
    ∧ out.property? "name" = some (.object [("type", .string "string")])
    ∧ out.at? ["properties", "age"] = (person.at? ["properties", "age"]).map filled
    ∧ out.get? "required" = some (.array [.string "name"])
    ∧ out.get? "type" = some (.string "object") := by
  have hwf : person.json.WellFormed := by decide +kernel
  have hsays : person.get? "required" = some (.array [.string "name", .string "phone"]) := by
    decide +kernel
  have hdeclares : person.get? "properties" = some (.object
      [("age", .object [("type", .string "integer")]), ("name", .object [("type", .string "string")]),
        ("phone", .object [("type", .string "string")])]) := by decide +kernel
  obtain ⟨out, hout, -, hdeclared, hat, hrequired, hothers⟩ :=
    removeProperty_removes hwf hsays rfl hdeclares ["phone"]
  refine ⟨out, hout, ?_, ?_, hat "age", hrequired.trans (by decide +kernel),
    (hothers "type" (by decide) (by decide)).trans (by decide +kernel)⟩
  · exact (hdeclared "phone" (by decide +kernel)).trans (by decide +kernel)
  · exact (hdeclared "name" (by decide +kernel)).trans (by decide +kernel)

/-- An object that requires a property, with this schema, and whose `default` is `null`. -/
def defaultNull (schema : Json) : Fragment where
  keywords := [("default", .null), ("properties", .object [("a", schema)]),
    ("required", .array [.string "a"])]

/-- Removing no property at all, a `null` is lost, an empty record, and a property that is `false`. -/
theorem removal_loses :
    (∃ out, (defaultNull (.object [])).removeProperty [] = .ok out
      ∧ (defaultNull (.object [])).get? "default" = some .null ∧ out.get? "default" = none)
    ∧ (∃ out, ((defaultNull (.object [])).modifyRecord "/properties/a" id).removeProperty [] = .ok out
      ∧ (((defaultNull (.object [])).modifyRecord "/properties/a" id).recordAt?
          "/properties/a").isSome = true ∧ (out.recordAt? "/properties/a").isSome = false)
    ∧ ∃ out, (defaultNull (.bool false)).removeProperty [] = .ok out
      ∧ (defaultNull (.bool false)).property? "a" = some (.bool false) ∧ out.property? "a" = none := by
  refine ⟨⟨_, rfl, ?_⟩, ⟨_, rfl, ?_⟩, ⟨_, rfl, ?_⟩⟩
  all_goals decide +kernel

/-! ## Several schemas under one name -/

/-- An object declares a property as a schema says: with the schema all its filled records are found
there, and the name is required once unless the schema is marked optional. -/
@[mk_iff]
structure Declares (object : Fragment) (name : String) (schema : Fragment) : Prop where
  /-- What is taken out is the schema. -/
  found : object.at? ["properties", name] = some schema.filled
  /-- The name is listed accordingly. -/
  required : object.requiredSeq.count (.string name)
    = if schema.optionalMark? = some true then 0 else 1

/-- No schema that is given under a name asks for more than this one. -/
structure Overrides (properties : List (String × Fragment)) (name : String) (schema : Fragment) :
    Prop where
  /-- There are filled records only where this one has some. -/
  records : ∀ pointer, schema.filled.recordAt? pointer = none →
    ∀ property ∈ properties, property.1 = name → property.2.filled.recordAt? pointer = none
  /-- If this one is optional, all are. -/
  optional : schema.optionalMark? = some true →
    ∀ property ∈ properties, property.1 = name → property.2.optionalMark? = some true

variable {last : Fragment}

/-- What the first entry under a name gives is found, if it gives something. -/
lemma findSome?_of_lookup {parts : List (String × Fragment)} {g : Fragment → Option Metadata}
    {m : Metadata} (hlast : Entries.lookup name parts = some last) (hm : g last = some m) :
    (parts.findSome? fun part => if part.1 = name then g part.2 else none) = some m := by
  induction parts with
  | nil => simp at hlast
  | cons part parts ih =>
    obtain ⟨other, child⟩ := part
    by_cases hother : other = name
    · subst hother
      rw [Entries.lookup_cons_self] at hlast
      obtain rfl := Option.some.inj hlast
      rw [List.findSome?_cons, if_pos rfl, hm]
    · rw [Entries.lookup_cons_of_ne hother] at hlast
      rw [List.findSome?_cons, if_neg hother]
      exact ih hlast

/-- The records of the last schema are found, unless others have some where it has none. -/
lemma adoptedBeneath?_eq_iff (hlast : Entries.lookup name properties.reverse = some last)
    (pointer : Pointer) : adoptedBeneath? properties name pointer = last.filled.recordAt? pointer
      ↔ (last.filled.recordAt? pointer = none →
        ∀ property ∈ properties, property.1 = name → property.2.filled.recordAt? pointer = none) := by
  have hadopted : adoptedBeneath? properties name pointer = properties.reverse.findSome? fun property =>
      if property.1 = name then property.2.filled.recordAt? pointer else none := by
    refine congrArg (List.findSome? · _) (funext fun property => ?_)
    exact congrArg (ite _ · none) (lookup_filledRecords property.2.records pointer).symm
  rw [hadopted]
  cases hrecord : last.filled.recordAt? pointer with
  | none =>
    rw [List.findSome?_eq_none_iff]
    simp only [List.mem_reverse, ite_eq_right_iff, forall_const]
  | some m => simp [findSome?_of_lookup (g := fun child => child.filled.recordAt? pointer) hlast hrecord]

lemma found_iff (hplaced : ∀ property ∈ properties, property.2.WellPlaced)
    (hlast : Entries.lookup name properties.reverse = some last) :
    (openObject properties).at? ["properties", name] = some last.filled
      ↔ ∀ pointer, adoptedBeneath? properties name pointer = last.filled.recordAt? pointer := by
  obtain ⟨child, hchild, hkeywords, hrecords⟩ :=
    lookup_at?_withChildren (ofType (.name "object")) "properties" hplaced hlast
  have hopen : (openObject properties).at? ["properties", name] = some child := by
    rw [openObject_eq_declaring, at?_declaring, hchild]
  rw [hopen, Option.some_inj]
  constructor
  · rintro rfl pointer
    exact (hrecords pointer).symm
  · intro hall
    exact congrArg₂ Fragment.mk hkeywords (Table.ext_lookup fun pointer =>
      (hrecords pointer).trans (hall pointer))

/-- A name is required once if one of its schemas is not marked optional, and else not. -/
lemma count_requiredSeq_openObject (properties : List (String × Fragment)) (name : String) :
    (openObject properties).requiredSeq.count (.string name)
      = if ∀ property ∈ properties, property.1 = name → property.2.optionalMark? = some true then 0
        else 1 := by
  have hrequired : (openObject properties).requiredSeq
      = (requiredNames properties).eraseDups.map .string := by
    rw [openObject_eq_declaring, declaring, requiredSeq_withRequired]
  rw [hrequired, List.count_map_of_injective _ _ (fun _ _ => Json.string.inj),
    (nodup_eraseDups _).count, ← ite_not]
  refine if_congr ?_ rfl rfl
  simp only [List.mem_eraseDups, requiredNames, List.mem_map, List.mem_filter, decide_eq_true_eq,
    not_exists, not_and, and_imp]
  exact ⟨fun h property hmem hname => by_contra fun hmark => h property hmem hmark hname,
    fun h property hmem hmark hname => hmark (h property hmem hname)⟩

lemma required_iff (hlast : Entries.lookup name properties.reverse = some last) :
    (openObject properties).requiredSeq.count (.string name)
        = (if last.optionalMark? = some true then 0 else 1)
      ↔ (last.optionalMark? = some true →
        ∀ property ∈ properties, property.1 = name → property.2.optionalMark? = some true) := by
  have hmem : (name, last) ∈ properties := List.mem_reverse.1 (Entries.mem_of_lookup hlast)
  rw [count_requiredSeq_openObject]
  by_cases hmark : last.optionalMark? = some true
  · rw [if_pos hmark]
    split
    · next hall => exact iff_of_true rfl fun _ => hall
    · next hnot => exact iff_of_false Nat.one_ne_zero fun h => hnot (h hmark)
  · rw [if_neg hmark, if_neg fun hall => hmark (hall _ hmem rfl)]
    exact iff_of_true rfl fun h => absurd h hmark

/-- Closing an object does not change its properties. -/
lemma declares_closedObject (properties : List (String × Fragment)) (name : String) (schema : Fragment) :
    (closedObject properties).Declares name schema ↔ (openObject properties).Declares name schema := by
  have hat : (closedObject properties).at? ["properties", name]
      = (openObject properties).at? ["properties", name] := at?_withKeyword (by decide) _ _
  have hseq : (closedObject properties).requiredSeq = (openObject properties).requiredSeq := by
    rw [requiredSeq, closedObject, get?_withKeyword_of_ne (by decide)]
    rfl
  rw [declares_iff, declares_iff, hat, hseq]

/-- **Several schemas under one name.**  An object, open or closed, declares the last of them; it is as
if only that one had been given just if no other asks for more. -/
theorem objects_declare_iff (hplaced : ∀ property ∈ properties, property.2.WellPlaced)
    (hlast : Entries.lookup name properties.reverse = some last) :
    ∀ object ∈ [openObject properties, closedObject properties],
      object.property? name = some last.json
        ∧ (object.Declares name last ↔ Overrides properties name last) := by
  have hproperty : (openObject properties).property? name = some last.json := by
    rw [openObject_eq_declaring, property?_declaring, hlast, Option.map_some]
  have hopen : (openObject properties).Declares name last ↔ Overrides properties name last := by
    rw [declares_iff, found_iff hplaced hlast, required_iff hlast]
    simp only [adoptedBeneath?_eq_iff hlast]
    exact ⟨fun h => ⟨h.1, h.2⟩, fun h => ⟨h.records, h.optional⟩⟩
  intro object hobject
  rcases List.mem_pair.1 hobject with rfl | rfl
  · exact ⟨hproperty, hopen⟩
  · refine ⟨?_, (declares_closedObject properties name last).trans hopen⟩
    rw [closedObject, property?_congr (get?_withKeyword_of_ne (by decide) _), hproperty]

/-- A note is given twice, optional both times. -/
def notedTwice : List (String × Fragment) :=
  [("note", (ofType (.name "string")).optional), ("id", ofType (.name "integer")),
    ("note", (ofType (.name "number")).optional)]

/-- The second one is declared. -/
theorem notedTwice_declared :
    (closedObject notedTwice).property? "note" = some (.object [("type", .string "number")])
      ∧ (openObject notedTwice).Declares "note" (ofType (.name "number")).optional
      ∧ (closedObject notedTwice).Declares "note" (ofType (.name "number")).optional := by
  have hoverrides : Overrides notedTwice "note" (ofType (.name "number")).optional := by
    constructor
    · intro pointer hnone property hproperty hname
      simp only [notedTwice, List.mem_cons, List.not_mem_nil, or_false] at hproperty
      rcases hproperty with rfl | rfl | rfl
      · exact hnone
      · simp at hname
      · exact hnone
    · decide +kernel
  have hplaced : ∀ property ∈ notedTwice, property.2.WellPlaced := by decide +kernel
  have hlast : Entries.lookup "note" notedTwice.reverse = some (ofType (.name "number")).optional := rfl
  obtain ⟨-, hopen⟩ := objects_declare_iff hplaced hlast (openObject notedTwice) List.mem_cons_self
  obtain ⟨hproperty, hclosed⟩ := objects_declare_iff hplaced hlast (closedObject notedTwice)
    (List.mem_cons_of_mem _ List.mem_cons_self)
  exact ⟨hproperty, hopen.2 hoverrides, hclosed.2 hoverrides⟩

/-- A name stays required although the last of its schemas is optional, and stays marked optional although
that one is not. -/
theorem earlier_schemas_show :
    ¬ (openObject [("a", ofType (.name "string")), ("a", (ofType (.name "number")).optional)]).Declares
        "a" (ofType (.name "number")).optional
      ∧ ¬ (openObject [("a", (ofType (.name "string")).optional), ("a", ofType (.name "number"))]).Declares
        "a" (ofType (.name "number")) := by
  refine ⟨fun h => absurd h.required (by decide +kernel), fun h => ?_⟩
  have hmark := congrArg (Option.bind · optionalMark?) h.found
  exact absurd hmark (by decide +kernel)

end Fragment

end SchemaAlgebra
