import SchemaAlgebra.Proofs.Complaints
import SchemaAlgebra.Proofs.Scopes

/-!
# What closed schemas complain of after pruning

A closed schema complains of the members that it does not provide for, and pruning drops those.  A second
pruning finds nothing more to drop (`Plan.prune_prune`), so every schema that it comes to has room for what
it comes there with.  Matching complains of a closing only where pruning comes too, if it reads references
as pruning does: as pointers from the root of the document.

* `Document.FollowsPointers` — the keywords by which matching goes on are those of pruning, and the
  references that it follows name what they lead to as pointers.
* **`Validator.no_closed_complaint_of_prune`** — matching then complains of no closing in a pruned value.
* `Document.followsPointers_of_keepsScope` — documents that are matched so.
-/

namespace SchemaAlgebra

open Fragment (plainScope)

/-! ## Pruned values -/

namespace Plan

/-- In a pruned value there is room wherever pruning comes. -/
lemma hasRoomBelow_prune {options : MatcherOptions} {extensions : List Extension} {registry : Registry}
    {schema : Fragment} {settings : Options} {plan : Plan}
    (h : compile (Matcher.build options extensions registry) schema settings = .ok plan) (value : Json) :
    schema.json.HasRoomBelow [] (plan.prune value) :=
  (prune_eq_self_iff h).1 (plan.prune_prune value)

end Plan

/-! ## Matching where pruning goes -/

namespace Document

/-- **Matching goes where pruning does.**  The keywords that apply schemas are those by which pruning goes
on, and what a reference names is what it leads to as a pointer from the root. -/
structure FollowsPointers (document : Document) : Prop where
  /-- Wherever matching comes. -/
  only : ∀ location keywords, document.Evaluates location → location.value = .object keywords →
    Json.OnlyPruned keywords
  /-- Whatever is referred to there. -/
  named : ∀ location keywords reference target, document.Evaluates location →
    location.value = .object keywords → Draft.reference? keywords = some reference →
    document.resolve? location.inner reference = some target →
    (Json.localTarget? keywords).bind Pointer.tokens? = some target.path

end Document

/-! ## Documents with references to themselves -/

namespace Json

/-- Every reference in the value is a pointer to something in it, with nothing percent-encoded. -/
def RefersWithin (value : Json) : Prop :=
  ∀ path keywords, value.walk? path = some (.object keywords) →
    ∀ reference ∈ Draft.reference? keywords, ∃ fragment ∈ localTarget? keywords,
      Uri.decodePercent fragment.toList = some fragment ∧ (value.resolve? fragment).isSome = true

instance (value : Json) : Decidable value.RefersWithin :=
  decidable_of_iff _ forall_walk?_iff.symm

/-- Schemas stand everywhere in the value beneath keywords by which pruning goes on only. -/
def OnlyPrunedWithin (value : Json) : Prop :=
  ∀ path keywords, value.walk? path = some (.object keywords) → OnlyPruned keywords

instance (value : Json) : Decidable value.OnlyPrunedWithin :=
  decidable_of_iff _ forall_walk?_iff.symm

end Json

/-- A reference with nothing before its `#` has that fragment only. -/
lemma Uri.eq_of_parse?_fragment {fragment : String} {uri : Uri}
    (h : Uri.parse? ("#" ++ fragment) = some uri) : uri = { fragment := some fragment.toList } := by
  have htext : ("#" ++ fragment).toList = '#' :: fragment.toList := by
    rw [String.toList_append]
    rfl
  simp [Uri.parse?, htext, Uri.cut, Uri.cutScheme?, Uri.cutAuthority] at h
  exact h.2.symm

namespace Location

/-- A step that a written pointer makes is made from a location too. -/
lemma step?_of_strict {location : Location} {token : String} {below : Json}
    (h : Json.step? Pointer.strictIndex? location.value token = some below) :
    location.step? token = some ⟨location.inner, location.path ++ [token], below⟩ := by
  unfold Location.step?
  cases hvalue : location.value with
  | object members =>
    rw [hvalue] at h
    exact congrArg (Option.map _) (show Entries.lookup token members = some below from h)
  | array items =>
    rw [hvalue] at h
    obtain ⟨index, hindex, hitem⟩ := Option.bind_eq_some_iff.1 h
    obtain rfl := Pointer.strictIndex?_eq_some.1 hindex
    simp [Pointer.lenientIndex?_of_strictIndex? hindex, hitem]
  | _ => simp [hvalue, Json.step?] at h

/-- The tokens that lead to something are the way to it. -/
lemma path_of_foldlM {tokens : List String} {location target : Location}
    (hwalk : (location.value.walk? tokens).isSome = true)
    (h : tokens.foldlM Location.step? location = some target) :
    target.path = location.path ++ tokens := by
  induction tokens generalizing location with
  | nil => simp [← Option.some.inj h]
  | cons token tokens ih =>
    obtain ⟨below, hbelow⟩ := Option.isSome_iff_exists.1 hwalk
    rw [Json.walk?_cons] at hbelow
    obtain ⟨next, hnext, hrest⟩ := Option.bind_eq_some_iff.1 hbelow
    rw [List.foldlM_cons, step?_of_strict hnext] at h
    rw [ih (by rw [hrest]; rfl) h, List.append_assoc]
    rfl

end Location

namespace Document

/-- **A written pointer** names what it leads to, where references are read against the root. -/
lemma path_of_resolve? {value : Json} {fragment : String} {path : List String} {target : Location}
    (hdecode : Uri.decodePercent fragment.toList = some fragment)
    (htokens : Pointer.tokens? fragment = some path) (hwalk : ((kept value).walk? path).isSome = true)
    (h : (ofJson .draft7 value).resolve? plainScope ("#" ++ fragment) = some target) :
    target.path = path := by
  obtain ⟨uri, huri, h⟩ := Option.bind_eq_some_iff.1 h
  obtain rfl := Uri.eq_of_parse?_fragment huri
  have hroot : (ofJson .draft7 value).resource? defaultBase
      = some ⟨⟨.draft7, defaultBase⟩, [], kept value⟩ := by
    rw [← rootLocation_ofJson, resource?, Plan.scope_ofJson, if_pos (by simp)]
  have hbase : (plainScope.base.resolve { fragment := some fragment.toList }).withoutFragment
      = defaultBase := rfl
  have hfragment : (plainScope.base.resolve { fragment := some fragment.toList }).fragment
      = some fragment.toList := rfl
  simp only [hbase, hfragment] at h
  cases hlist : fragment.toList with
  | nil =>
    obtain rfl : fragment = "" := String.toList_eq_nil_iff.1 hlist
    simp only [hlist, hroot] at h
    rw [← Option.some.inj h]
    exact Option.some.inj htokens
  | cons c cs =>
    by_cases hslash : c = '/'
    · subst hslash
      simp only [hlist, hroot] at h
      rw [hlist] at hdecode
      simp only [hdecode, htokens, Option.bind_eq_bind, Option.bind_some] at h
      exact Location.path_of_foldlM hwalk h
    · simp [Pointer.tokens?, hlist, hslash] at htokens

/-- In a document in one scope, matching stays in that scope. -/
lemma scope_of_evaluates {value : Json} (hwf : value.WellFormed)
    (hkeeps : (kept value).KeepsScope plainScope) {location : Location}
    (h : (ofJson .draft7 value).Evaluates location) :
    location.Sound (kept value) ∧ location.inner = plainScope := by
  induction h with
  | refl =>
    rw [rootLocation_ofJson]
    have hroot : Location.Sound (kept value) ⟨plainScope, [], kept value⟩ := rfl
    exact ⟨hroot, hroot.inner_eq_of_keepsScope hkeeps rfl⟩
  | @tail a b _ hstep ih =>
    have hsound : b.Sound (kept value) := by
      rw [← root_ofJson .draft7 value] at ih ⊢
      exact hstep.sound (by rw [root_ofJson]; exact wellFormed_kept hwf) (listed_ofJson _ hwf) ih.1
    refine ⟨hsound, hsound.inner_eq_of_keepsScope hkeeps ?_⟩
    rcases hstep with ⟨_, _⟩ | ⟨_, _, hresolve⟩
    · exact ih.2
    · exact scope_of_resolve? hwf hkeeps hresolve

/-- **A document in one scope**, whose references are written pointers to something in it, is matched as
it is pruned. -/
lemma followsPointers_of_keepsScope {value : Json} (hwf : value.WellFormed)
    (hkeeps : (kept value).KeepsScope plainScope) (honly : (kept value).OnlyPrunedWithin)
    (hrefers : (kept value).RefersWithin) : (ofJson .draft7 value).FollowsPointers where
  only location keywords hlocation hkeywords :=
    honly location.path keywords (hkeywords ▸ (scope_of_evaluates hwf hkeeps hlocation).1)
  named location keywords reference target hlocation hkeywords hreference hresolve := by
    obtain ⟨hsound, hinner⟩ := scope_of_evaluates hwf hkeeps hlocation
    obtain ⟨fragment, hfragment, hdecode, hresolves⟩ :=
      hrefers location.path keywords (hkeywords ▸ hsound) reference hreference
    obtain ⟨below, hbelow⟩ := Option.isSome_iff_exists.1 hresolves
    rw [Json.resolve?_eq] at hbelow
    obtain ⟨path, htokens, hwalk⟩ := Option.bind_eq_some_iff.1 hbelow
    obtain rfl : reference = "#" ++ fragment := by
      rw [Draft.reference?, Outline.localTarget?_eq_some.1 hfragment] at hreference
      exact (Option.some.inj hreference).symm
    rw [hinner] at hresolve
    rw [show Json.localTarget? keywords = some fragment from hfragment, Option.bind_some, htokens,
      path_of_resolve? hdecode htokens (by rw [hwalk]; rfl) hresolve]

end Document

/-! ## Matching a pruned value -/

namespace Validator

variable {schema : Fragment} {options : Option Options} {validator : Validator}
  {location target : Location} {keywords : Entries Json} {value part : Json} {way : List String}

/-- Where matching reads a schema, pruning reads the same one, but for the announced dialect. -/
lemma exists_walk?_of_sound (h : compile schema options = .ok validator)
    (hsound : location.Sound validator.matcher.document.root)
    (hkeywords : location.value = .object keywords) :
    ∃ others, schema.json.walk? location.path = some (.object others)
      ∧ Document.SameButDialect keywords others := by
  obtain ⟨-, draft, hdocument⟩ := document_eq h
  rw [Location.Sound, hdocument, Document.root_ofJson, hkeywords] at hsound
  exact Document.exists_walk?_of_kept hsound

/-- Where there is room below a schema, it provides for all members if it is closed. -/
lemma covers_of_room (h : compile schema options = .ok validator)
    (hsound : location.Sound validator.matcher.document.root)
    (hkeywords : location.value = .object keywords) {members : Entries Json} {member : String × Json}
    (hroom : schema.json.HasRoomBelow location.path (.object members))
    (hlookup : Entries.lookup "additionalProperties" keywords = some (.bool false))
    (hmember : member ∈ members) : Matcher.covers keywords member.1 = true := by
  obtain ⟨others, hwalk, hsame⟩ := exists_walk?_of_sound h hsound hkeywords
  rw [Json.Governs.covers_congr hsame]
  rw [hsame _ (by decide)] at hlookup
  exact hroom _ _ Relation.ReflTransGen.refl _ _ hwalk rfl hlookup member hmember

/-- There is room below what a schema entrusts, where pruning goes there. -/
lemma flag_or_room_of_entrusts (h : compile schema options = .ok validator)
    (hsound : location.Sound validator.matcher.document.root)
    (hkeywords : location.value = .object keywords) (hroom : schema.json.HasRoomBelow location.path value)
    {inner : Json} (hentrusts : Matcher.Entrusts location.inner.draft keywords value way inner part) :
    (∃ keyword, way = [keyword] ∧ keyword ≠ "additionalProperties" ∧ inner.isObject = false)
      ∨ (way, inner) ∈ Matcher.applied location.inner.draft keywords
        ∧ schema.json.HasRoomBelow (location.path ++ way) part := by
  obtain ⟨others, hwalk, hsame⟩ := exists_walk?_of_sound h hsound hkeywords
  cases hentrusts with
  | part happlied hgoverns =>
    have hgoverns := hgoverns.congr fun keyword hkeyword => (hsame keyword hkeyword).symm
    exact Or.inr ⟨happlied, hroom.of_hands (.part hwalk hgoverns)⟩
  | conjunct hlookup hschema happlied =>
    rw [hsame _ (by decide)] at hlookup
    obtain ⟨hindex, -⟩ := List.getElem?_eq_some_iff.1 hschema
    exact Or.inr ⟨happlied, hroom.of_hands (.same (.allOf hwalk hlookup hindex))⟩
  | flag hkeyword hflag => exact Or.inl ⟨_, rfl, hkeyword, hflag⟩

/-- Matching goes on to what a reference names, and there is room below it. -/
lemma room_of_reference (h : compile schema options = .ok validator) (hwf : schema.json.WellFormed)
    (hfollows : validator.matcher.document.FollowsPointers)
    (hlocation : validator.matcher.document.Evaluates location)
    (hsound : location.Sound validator.matcher.document.root)
    (hkeywords : location.value = .object keywords) (hroom : schema.json.HasRoomBelow location.path value)
    {reference : String} (hreference : Draft.reference? keywords = some reference)
    (hresolve : validator.matcher.document.resolve? location.inner reference = some target) :
    validator.matcher.document.Applies location target
      ∧ schema.json.HasRoomBelow target.path value := by
  obtain ⟨fragment, hfragment, htokens⟩ := Option.bind_eq_some_iff.1
    (hfollows.named location keywords reference target hlocation hkeywords hreference hresolve)
  obtain rfl : reference = "#" ++ fragment := by
    rw [Draft.reference?, Outline.localTarget?_eq_some.1 hfragment] at hreference
    exact (Option.some.inj hreference).symm
  have hstep : validator.matcher.document.Applies location target :=
    Or.inr (.intro hkeywords hfragment hresolve)
  refine ⟨hstep, ?_⟩
  obtain ⟨others, hwalk, hsame⟩ := exists_walk?_of_sound h hsound hkeywords
  obtain ⟨-, draft, hdocument⟩ := document_eq h
  have htarget := sound_of_applies h hwf hsound hstep
  rw [hdocument, Document.root_ofJson] at htarget
  rw [Json.localTarget?, hsame _ (by decide)] at hfragment
  exact hroom.of_hands (.same (.reference hwalk hfragment htokens (isSome_walk?_of_sound htarget)))

/-- What is no schema with keywords complains at itself. -/
lemma schemaRoute_of_mem_judge {m : Matcher} {steps : ℕ} {scope : Scope} {schema : Json}
    {violation : Violation} (hflag : schema.isObject = false)
    (h : violation ∈ m.judge steps scope schema value) : violation.schemaRoute = [] := by
  cases steps with
  | zero => exact absurd h List.not_mem_nil
  | succ steps =>
    cases schema with
    | object => simp [Json.isObject] at hflag
    | bool flag =>
      cases flag with
      | false =>
        obtain rfl := List.mem_singleton.1 h
        rfl
      | true => exact absurd h List.not_mem_nil
    | _ => exact absurd h List.not_mem_nil

/-- **Room is enough.**  Matching complains of no closing below a schema with room.  By induction on the
steps, each of which leads from a schema and a value with room to others with room. -/
lemma not_ofClosed_of_room (h : compile schema options = .ok validator) (hwf : schema.json.WellFormed)
    (hfollows : validator.matcher.document.FollowsPointers) (steps : ℕ) :
    ∀ (location : Location) (value : Json) (violation : Violation),
      validator.matcher.document.Evaluates location → location.Sound validator.matcher.document.root →
      schema.json.HasRoomBelow location.path value →
      violation ∈ validator.matcher.judge steps location.scope location.value value →
      ¬ validator.matcher.document.OfClosed location violation := by
  induction steps with
  | zero => exact fun _ _ _ _ _ _ hmem => absurd hmem List.not_mem_nil
  | succ steps ih =>
    intro location value violation hlocation hsound hroom hmem hclosed
    cases hvalue : location.value with
    | object keywords =>
      have hkeywordsWf := hvalue ▸ wellFormed_of_sound h hwf hsound
      have hinner : location.inner = location.scope.enter keywords := by rw [Location.inner, hvalue]
      rw [hvalue, Matcher.judge_object, ← hinner] at hmem
      have honly := hfollows.only location keywords hlocation hvalue
      -- only the second case is about closing, and room excludes it; the others end elsewhere or lead on
      cases Matcher.complains_of_mem_nodeViolations honly hkeywordsWf.1 hmem with
      | own haside =>
        obtain ⟨keyword, hroute, hkeyword⟩ := haside
        exact hkeyword (hclosed.of_keyword hroute).1
      | closing hmembers hlookup hmember huncovered =>
        subst hmembers
        have hcovers := covers_of_room h hsound hvalue hroom hlookup hmember
        simp [huncovered] at hcovers
      | @passed inner way entrusted part tokens hentrusts hcomplaint =>
        rcases flag_or_room_of_entrusts h hsound hvalue hroom hentrusts
          with ⟨keyword, rfl, hkeyword, hflag⟩ | ⟨happlied, hroom⟩
        · have hroute : (inner.under [keyword] tokens).schemaRoute = [keyword] := by
            rw [Violation.under, schemaRoute_of_mem_judge hflag hcomplaint, List.append_nil]
          exact hkeyword (hclosed.of_keyword hroute).1
        · have hstep : validator.matcher.document.Applies location
              ⟨location.inner, location.path ++ way, entrusted⟩ := Or.inl (.intro hvalue happlied)
          exact ih _ _ _ (hlocation.tail hstep) (sound_of_applies h hwf hsound hstep) hroom hcomplaint
            (hclosed.of_inside hkeywordsWf hvalue (Matcher.mem_inside_of_applied happlied))
      | referred hreference hresolve hcomplaint =>
        obtain ⟨hstep, hroom⟩ :=
          room_of_reference h hwf hfollows hlocation hsound hvalue hroom hreference hresolve
        exact ih _ _ _ (hlocation.tail hstep) (sound_of_applies h hwf hsound hstep) hroom hcomplaint
          (hclosed.of_reference hvalue hreference hresolve)
    | _ =>
      exact hclosed.ne_nil (schemaRoute_of_mem_judge (by rw [hvalue]; rfl) hmem)

/-- **Pruning leaves nothing to close.**  Where matching goes as pruning does, it complains of no closing
in a pruned value, whatever the value was. -/
theorem no_closed_complaint_of_prune (h : compile schema options = .ok validator)
    (hwf : schema.json.WellFormed) (hfollows : validator.matcher.document.FollowsPointers)
    (value : Json) : ∀ violation ∈ validator.matcher.violations (validator.plan.prune value),
      ¬ validator.matcher.document.OfClosed validator.matcher.document.rootLocation violation := by
  obtain ⟨_, _, -, hplan⟩ := compile_ok h
  intro violation hmem
  exact not_ofClosed_of_room h hwf hfollows _ _ _ violation Relation.ReflTransGen.refl
    Document.rootLocation_sound (Plan.hasRoomBelow_prune hplan value) hmem

/-- Folders: they are closed, contain folders, and have notes under keys of their own. -/
def folderSchema : Fragment where
  keywords :=
    [("additionalProperties", .bool false),
      ("allOf", .array [.object [("required", .array [.string "name"])]]),
      ("definitions", .object [("note", .object [("additionalProperties", .bool false),
        ("properties", .object [("text", .object [("type", .string "string")])])])]),
      ("patternProperties", .object [("^x-", .object [("$ref", .string "#/definitions/note")])]),
      ("properties", .object [("entries", .object [("items", .object [("$ref", .string "#")])]),
        ("name", .object [("type", .string "string")])])]

/-- A folder with members that are not provided for, also further down. -/
def folderValue : Json :=
  .object [("entries", .array [.object [("name", .string "b"), ("size", .int 1)]]),
    ("name", .string "a"), ("x-n", .object [("author", .string "c"), ("text", .string "t")])]

/-- The folder is refused as it is, and no closing is complained of once it is pruned. -/
theorem folderSchema_closes_nothing : ∃ validator, compile folderSchema none = .ok validator
    ∧ folderSchema.json.WellFormed ∧ validator.matcher.document.FollowsPointers
    ∧ validator.matcher.accepts folderValue = false
    ∧ ∀ violation ∈ validator.matcher.violations (validator.plan.prune folderValue),
      ¬ validator.matcher.document.OfClosed validator.matcher.document.rootLocation violation := by
  have hany : (compile folderSchema none).toOption.any (fun validator =>
      !validator.matcher.accepts folderValue) = true := by decide +kernel
  have hwf : folderSchema.json.WellFormed := by decide +kernel
  cases hcompile : compile folderSchema none with
  | error e => simp [hcompile, Except.toOption] at hany
  | ok validator =>
    simp only [hcompile, Except.toOption, Option.any_some, Bool.not_eq_true'] at hany
    have hdocument : validator.matcher.document = Document.ofJson .draft7 folderSchema.json :=
      matcher_document_eq hcompile
    have hfollows : validator.matcher.document.FollowsPointers := by
      rw [hdocument]
      exact Document.followsPointers_of_keepsScope hwf (by decide +kernel) (by decide +kernel)
        (by decide +kernel)
    exact ⟨validator, rfl, hwf, hfollows, hany,
      no_closed_complaint_of_prune hcompile hwf hfollows folderValue⟩

/-- A schema with an identifier, and so a base of its own, that refers to a definition of its own. -/
def rebasedKeywords : Entries Json :=
  [("$id", .string "inner"),
    ("definitions", .object [("a", .object [("additionalProperties", .bool false)])]),
    ("properties", .object [("y", .object [("$ref", .string "#/definitions/a")])])]

/-- A schema around it, with a definition that the reference leads to as a pointer. -/
def rebasedSchema : Fragment where
  keywords :=
    [("definitions", .object [("a", .object [])]),
      ("properties", .object [("x", .object rebasedKeywords)])]

/-- A value with a member that the inner definition does not provide for. -/
def rebasedValue : Json :=
  .object [("x", .object [("y", .object [("z", .int 1)])])]

/-- The place of the schema with an identifier. -/
def rebasedLocation : Location :=
  ⟨(Document.ofJson .draft7 rebasedSchema.json).rootLocation.inner, ["properties", "x"],
    .object rebasedKeywords⟩

/-- The definition that the reference means. -/
def rebasedTarget : Location :=
  ⟨rebasedLocation.inner, ["properties", "x", "definitions", "a"],
    .object [("additionalProperties", .bool false)]⟩

/-- A route of complaints leads to the inner definition. -/
lemma rebasedSchema_routes : (Document.ofJson .draft7 rebasedSchema.json).Routes
    (Document.ofJson .draft7 rebasedSchema.json).rootLocation
    (["properties", "x"] ++ (["properties", "y"] ++ ["$ref"])) rebasedTarget := by
  have houter : (["properties", "x"], .object rebasedKeywords)
      ∈ Json.inside rebasedSchema.keywords := by decide +kernel
  have hinner : (["properties", "y"], .object [("$ref", .string "#/definitions/a")])
      ∈ Json.inside rebasedKeywords := by decide +kernel
  have hresolve : (Document.ofJson .draft7 rebasedSchema.json).resolve?
      (Location.inner ⟨rebasedLocation.inner, rebasedLocation.path ++ ["properties", "y"],
        .object [("$ref", .string "#/definitions/a")]⟩) "#/definitions/a" = some rebasedTarget := by
    decide +kernel
  exact .inside rfl houter (.inside rfl hinner (.reference rfl rfl hresolve .here))

/-- The references of the schema are pointers to something in it, and pruning goes on by its keywords; yet a
closing is complained of after pruning. -/
theorem rebasedSchema_complains_of_closing : ∃ validator, compile rebasedSchema none = .ok validator
    ∧ rebasedSchema.json.WellFormed ∧ rebasedSchema.json.OnlyPrunedWithin
    ∧ rebasedSchema.json.RefersWithin
    ∧ ∃ violation ∈ validator.matcher.violations (validator.plan.prune rebasedValue),
      validator.matcher.document.OfClosed validator.matcher.document.rootLocation violation := by
  have hany : (compile rebasedSchema none).toOption.any (fun validator =>
      (validator.matcher.violations (validator.plan.prune rebasedValue)).any fun violation =>
        violation.schemaRoute = ["properties", "x", "properties", "y", "$ref", "additionalProperties"])
      = true := by decide +kernel
  cases hcompile : compile rebasedSchema none with
  | error e => simp [hcompile, Except.toOption] at hany
  | ok validator =>
    rw [hcompile] at hany
    obtain ⟨violation, hviolation, hroute⟩ := List.any_eq_true.1 hany
    have hdocument : validator.matcher.document = Document.ofJson .draft7 rebasedSchema.json :=
      matcher_document_eq hcompile
    refine ⟨validator, rfl, by decide +kernel, by decide +kernel, by decide +kernel, violation,
      hviolation, _, _, hdocument ▸ rebasedSchema_routes, ⟨_, rfl, rfl⟩, of_decide_eq_true hroute⟩

end Validator

end SchemaAlgebra
