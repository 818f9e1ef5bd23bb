import SchemaAlgebra.Proofs.Complaints
import SchemaAlgebra.Proofs.Keywords
import SchemaAlgebra.Proofs.Questions
import SchemaAlgebra.Proofs.Revisions

/-!
# Finding less wrong

If a judge finds less wrong with values than another one, as far as the schemas go that count for a value,
and no less as far as those go that count against it, then keyword by keyword less is wrong
(`Matcher.apply_mono`).  Against a value count the schemas under `not`.  Those under `oneOf` and `if` count
both ways, and so does the one under `contains` if no more than so many items may satisfy it
(`Matcher.opposes`).

**`Matcher.nodeViolations_mono`** — so it is for a schema that requires fewer names than another one, and
is like it otherwise.
-/

namespace SchemaAlgebra

namespace Matcher

/-! ## Judges that find less wrong -/

section Judges

variable {judge judge' : Judge} {scope : Scope} {keywords : Entries Json} {keyword : String}
  {argument schema value : Json}

/-- What satisfies a schema by one judge does by another. -/
def Eases (judge judge' : Judge) (scope : Scope) (schema : Json) : Prop :=
  ∀ value, judge scope schema value = [] → judge' scope schema value = []

lemma satisfies_iff : satisfies judge scope schema value = true ↔ judge scope schema value = [] :=
  List.isEmpty_iff

lemma Eases.satisfies (h : Eases judge judge' scope schema)
    (hsatisfies : satisfies judge scope schema value = true) : satisfies judge' scope schema value = true :=
  satisfies_iff.2 (h value (satisfies_iff.1 hsatisfies))

lemma Eases.satisfies_eq (h : Eases judge judge' scope schema) (h' : Eases judge' judge scope schema)
    (value : Json) :
    Matcher.satisfies judge scope schema value = Matcher.satisfies judge' scope schema value :=
  Bool.eq_iff_iff.2 ⟨h.satisfies, h'.satisfies⟩

lemma Eases.applyTo (h : Eases judge judge' scope schema) {route : List String} {token : String}
    (hnil : applyTo judge scope route token schema value = []) :
    applyTo judge' scope route token schema value = [] :=
  applyTo_eq_nil.2 (h value (applyTo_eq_nil.1 hnil))

lemma Eases.applyHere (h : Eases judge judge' scope schema) {route : List String}
    (hnil : applyHere judge scope route schema value = []) : applyHere judge' scope route schema value = [] :=
  List.map_eq_nil_iff.2 (h value (List.map_eq_nil_iff.1 hnil))

lemma flatMap_eq_nil_mono {α : Type} {f g : α → List Violation} {items : List α}
    (h : ∀ a ∈ items, f a = [] → g a = []) (hnil : items.flatMap f = []) : items.flatMap g = [] :=
  List.flatMap_eq_nil_iff.2 fun a ha => h a ha (List.flatMap_eq_nil_iff.1 hnil a ha)

lemma allOf_mono {schemas : List Json} (h : ∀ schema ∈ schemas, Eases judge judge' scope schema)
    (hnil : allOf judge scope schemas value = []) : allOf judge' scope schemas value = [] :=
  flatMap_eq_nil_mono (fun _ hentry => (h _ (List.fst_mem_of_mem_zipIdx hentry)).applyHere) hnil

lemma anyOf_mono {schemas : List Json} (h : ∀ schema ∈ schemas, Eases judge judge' scope schema)
    (hnil : anyOf judge scope schemas value = []) : anyOf judge' scope schemas value = [] := by
  obtain ⟨schema, hschema, hsatisfies⟩ := List.any_eq_true.1 (require_eq_nil.1 hnil)
  exact require_eq_nil.2 (List.any_eq_true.2 ⟨schema, hschema, (h schema hschema).satisfies hsatisfies⟩)

/-- As many schemas are satisfied as before, so one if it was one. -/
lemma oneOf_mono {schemas : List Json} (h : ∀ schema ∈ schemas, Eases judge judge' scope schema)
    (hagainst : ∀ schema ∈ schemas, Eases judge' judge scope schema)
    (hnil : oneOf judge scope schemas value = []) : oneOf judge' scope schemas value = [] := by
  have hcount : schemas.countP (fun schema => satisfies judge scope schema value)
      = schemas.countP fun schema => satisfies judge' scope schema value :=
    List.countP_congr fun schema hschema => by
      rw [(h schema hschema).satisfies_eq (hagainst schema hschema)]
  rwa [oneOf, ← hcount]

lemma negation_mono (hagainst : Eases judge' judge scope argument)
    (hnil : negation judge scope argument value = []) : negation judge' scope argument value = [] := by
  have hnot := require_eq_nil.1 hnil
  refine require_eq_nil.2 ?_
  rw [Bool.not_eq_true', Bool.eq_false_iff] at hnot ⊢
  exact fun hsatisfies => hnot (hagainst.satisfies hsatisfies)

lemma contains_eq_nil_iff {items : List Json} : contains judge scope keywords argument items = []
    ↔ (containsLimits scope.draft keywords).allows (items.countP (satisfies judge scope argument)) = true := by
  rw [contains]
  split <;> simp_all

/-- More items are right than before, and no more than may be. -/
lemma contains_mono {items : List Json} (h : Eases judge judge' scope argument)
    (hagainst : (containsLimits scope.draft keywords).most?.isSome = true → Eases judge' judge scope argument)
    (hnil : contains judge scope keywords argument items = []) :
    contains judge' scope keywords argument items = [] := by
  have hmore : items.countP (satisfies judge scope argument) ≤ items.countP (satisfies judge' scope argument) :=
    List.countP_mono_left fun item _ => h.satisfies
  rw [contains_eq_nil_iff, ContainsLimits.allows, Bool.and_eq_true, decide_eq_true_eq] at hnil ⊢
  obtain ⟨hleast, hmost⟩ := hnil
  refine ⟨Nat.le_trans hleast hmore, ?_⟩
  cases hlimit : (containsLimits scope.draft keywords).most? with
  | none => rfl
  | some most =>
    rw [hlimit] at hmost hagainst
    have hsame : items.countP (satisfies judge' scope argument) = items.countP (satisfies judge scope argument) :=
      Nat.le_antisymm (List.countP_mono_left fun item _ => (hagainst rfl).satisfies) hmore
    rwa [hsame]

lemma properties_mono {schemas members : Entries Json}
    (h : ∀ schema ∈ schemas.map Prod.snd, Eases judge judge' scope schema)
    (hnil : properties judge scope schemas members = []) : properties judge' scope schemas members = [] := by
  refine flatMap_eq_nil_mono (fun entry hentry => ?_) hnil
  dsimp only
  split
  · exact (h entry.2 (List.mem_map_of_mem hentry)).applyTo
  · exact id

lemma patternProperties_mono {schemas members : Entries Json}
    (h : ∀ schema ∈ schemas.map Prod.snd, Eases judge judge' scope schema)
    (hnil : patternProperties judge scope schemas members = []) :
    patternProperties judge' scope schemas members = [] := by
  refine flatMap_eq_nil_mono (fun entry hentry => flatMap_eq_nil_mono fun member _ => ?_) hnil
  dsimp only
  split
  · exact (h entry.2 (List.mem_map_of_mem hentry)).applyTo
  · exact id

lemma itemByItem_mono {schemas items : List Json} (h : ∀ schema ∈ schemas, Eases judge judge' scope schema)
    (hnil : itemByItem judge scope keyword schemas items = []) :
    itemByItem judge' scope keyword schemas items = [] := by
  refine flatMap_eq_nil_mono ?_ hnil
  rintro ⟨⟨schema, item⟩, index⟩ hmem
  exact (h schema (List.of_mem_zip (List.fst_mem_of_mem_zipIdx hmem)).1).applyTo

lemma itemsFrom_mono (h : Eases judge judge' scope schema) {items : List Json} {first : ℕ}
    (hnil : itemsFrom judge scope keyword first schema items = []) :
    itemsFrom judge' scope keyword first schema items = [] :=
  flatMap_eq_nil_mono (fun _ _ => h.applyTo) hnil

lemma coveredMember_mono {key : String}
    (hproperties : ∀ schema ∈ (schemasUnder "properties" keywords).map Prod.snd,
      Eases judge judge' scope schema)
    (hpatterns : ∀ schema ∈ (schemasUnder "patternProperties" keywords).map Prod.snd,
      Eases judge judge' scope schema)
    (hnil : coveredMember judge scope keywords key value = []) :
    coveredMember judge' scope keywords key value = [] := by
  obtain ⟨hdeclared, hpattern⟩ := List.append_eq_nil_iff.1 hnil
  refine List.append_eq_nil_iff.2 ⟨?_, flatMap_eq_nil_mono (fun entry hentry => ?_) hpattern⟩
  · revert hdeclared
    cases hlookup : Entries.lookup key (schemasUnder "properties" keywords) with
    | none => exact fun _ => rfl
    | some schema => exact (hproperties schema (List.mem_map_of_mem (Entries.mem_of_lookup hlookup))).applyTo
  · exact (hpatterns entry.2 (List.mem_map_of_mem (List.mem_filter.1 hentry).1)).applyTo

lemma additionalProperties_mono {members : Entries Json}
    (hproperties : ∀ schema ∈ (schemasUnder "properties" keywords).map Prod.snd,
      Eases judge judge' scope schema)
    (hpatterns : ∀ schema ∈ (schemasUnder "patternProperties" keywords).map Prod.snd,
      Eases judge judge' scope schema)
    (hrest : Eases judge judge' scope argument)
    (hnil : additionalProperties judge scope keywords argument members = []) :
    additionalProperties judge' scope keywords argument members = [] := by
  unfold additionalProperties at hnil ⊢
  split
  · dsimp only at hnil ⊢
    split
    · rename_i hdeclares
      rw [if_pos hdeclares] at hnil
      obtain ⟨hcovered, hclosed⟩ := List.append_eq_nil_iff.1 hnil
      exact List.append_eq_nil_iff.2
        ⟨flatMap_eq_nil_mono (fun _ _ => coveredMember_mono hproperties hpatterns) hcovered, hclosed⟩
    · rename_i hdeclares
      rwa [if_neg hdeclares] at hnil
  · refine flatMap_eq_nil_mono (fun member _ => ?_) hnil
    dsimp only
    split
    · exact coveredMember_mono hproperties hpatterns
    · exact hrest.applyTo
  · rfl

lemma propertyNames_mono {members : Entries Json} (h : Eases judge judge' scope argument)
    (hnil : propertyNames judge scope argument members = []) :
    propertyNames judge' scope argument members = [] := by
  unfold propertyNames at hnil ⊢
  split at hnil
  · exact hnil
  · exact flatMap_eq_nil_mono (fun key _ hkey =>
      List.map_eq_nil_iff.2 (h _ (List.map_eq_nil_iff.1 hkey))) hnil

lemma items_mono {values : List Json}
    (h : ∀ schema ∈ schemasApplied keywords "items" argument, Eases judge judge' scope schema)
    (hnil : items judge scope keywords argument values = []) :
    items judge' scope keywords argument values = [] := by
  unfold items at hnil ⊢
  split at hnil
  · exact itemByItem_mono h hnil
  · rename_i hlist
    refine itemsFrom_mono (h argument ?_) hnil
    rw [schemasApplied_items_of_not_array hlist]
    exact List.mem_cons_self

lemma additionalItems_mono {values : List Json}
    (h : ∀ schema ∈ schemasApplied keywords "additionalItems" argument, Eases judge judge' scope schema)
    (hnil : additionalItems judge scope keywords argument values = []) :
    additionalItems judge' scope keywords argument values = [] := by
  unfold additionalItems at hnil ⊢
  split at hnil
  · exact hnil
  · rename_i hlist
    exact itemsFrom_mono (h _ (by simp [schemasApplied, hlist])) hnil
  · rfl

lemma dependencies_mono {members : Entries Json}
    (h : ∀ schemas, argument = .object schemas → ∀ entry ∈ schemas, entry.2.isArray = false →
      Eases judge judge' scope entry.2)
    (hnil : dependencies judge scope keyword argument members = []) :
    dependencies judge' scope keyword argument members = [] := by
  refine flatMap_eq_nil_mono ?_ hnil
  rintro ⟨name, dependency⟩ hmem
  dsimp only
  split
  · split
    · exact id
    · rename_i hnot
      obtain ⟨schemas, rfl⟩ := exists_object_of_mem_members hmem
      exact (h schemas rfl (name, dependency) hmem (isArray_eq_false hnot)).applyHere
  · exact id

lemma conditional_mono
    (h : (Entries.contains "then" keywords || Entries.contains "else" keywords) = true →
      Eases judge judge' scope argument
        ∧ ∀ keyword ∈ ["then", "else"], ∀ schema ∈ Entries.lookup keyword keywords,
          Eases judge judge' scope schema)
    (hagainst : Eases judge' judge scope argument)
    (hnil : conditional judge scope keywords argument value = []) :
    conditional judge' scope keywords argument value = [] := by
  have hbranch : ∀ condition : Bool, (if condition then "then" else "else") ∈ ["then", "else"] := by decide
  rw [Entries.contains_eq_isSome, Entries.contains_eq_isSome] at h
  unfold conditional at hnil ⊢
  cases hneither : (Entries.lookup "then" keywords).isSome || (Entries.lookup "else" keywords).isSome with
  | true =>
    obtain ⟨hcondition, hfollowing⟩ := h hneither
    rw [← hcondition.satisfies_eq hagainst value]
    revert hnil
    dsimp only
    split
    · rename_i schema hlookup
      exact (hfollowing _ (hbranch _) schema hlookup).applyHere
    · exact id
  | false => simp only [lookup_following_eq_none hneither]

/-- Whether schemas under a keyword count against a value: the more satisfies them, the less may satisfy
the keyword. -/
def opposes (draft : Draft) (keywords : Entries Json) (keyword : String) : Bool :=
  match keyword with
  | "not" | "oneOf" | "if" => true
  | "contains" => (containsLimits draft keywords).most?.isSome
  | _ => false

/-- The schemas that count against a value. -/
def opposed (draft : Draft) (keywords : Entries Json) (keyword : String) (argument : Json) : List Json :=
  if opposes draft keywords keyword then
    if keyword = "oneOf" then (argument.items?).getD [] else [argument]
  else []

/-- **A keyword finds less wrong** if less is wrong by its schemas, and no less by those that count against
the value. -/
lemma apply_mono (hlookup : Entries.lookup keyword keywords = some argument)
    (hfor : keyword ≠ "not" → ∀ schema ∈ schemasApplied keywords keyword argument,
      Eases judge judge' scope schema)
    (hagainst : ∀ schema ∈ opposed scope.draft keywords keyword argument, Eases judge' judge scope schema)
    (hnil : apply judge scope keywords keyword argument value = []) :
    apply judge' scope keywords keyword argument value = [] := by
  unfold apply at hnil ⊢
  dsimp only at hnil ⊢
  split
  · exact allOf_mono (fun schema hschema =>
      hfor (by decide) schema (mem_schemasApplied_of_mem_items (by simp) hschema)) hnil
  · exact anyOf_mono (fun schema hschema =>
      hfor (by decide) schema (mem_schemasApplied_of_mem_items (by simp) hschema)) hnil
  · exact oneOf_mono (fun schema hschema =>
      hfor (by decide) schema (mem_schemasApplied_of_mem_items (by simp) hschema)) hagainst hnil
  · exact negation_mono (hagainst argument (List.mem_singleton_self _)) hnil
  · refine conditional_mono (fun hfollowing => ?_) (hagainst argument (List.mem_singleton_self _)) hnil
    refine ⟨hfor (by decide) _ (mem_schemasApplied_of_condition hfollowing (Or.inl rfl)),
      fun keyword hkeyword schema hschema =>
        hfor (by decide) schema (mem_schemasApplied_of_condition hfollowing (Or.inr ?_))⟩
    rcases List.mem_pair.1 hkeyword with rfl | rfl
    · exact Or.inl (Option.mem_toList.2 hschema)
    · exact Or.inr (Option.mem_toList.2 hschema)
  · split
    · rfl
    · rename_i members halone
      replace hnil : properties judge scope ((argument.members?).getD []) members = [] := by
        simpa [halone] using hnil
      exact properties_mono (fun schema hschema => hfor (by decide) schema
        (mem_schemasApplied_of_mem_members (by simp) (by simpa using halone) hschema)) hnil
  · split
    · rfl
    · rename_i members halone
      replace hnil : patternProperties judge scope ((argument.members?).getD []) members = [] := by
        simpa [halone] using hnil
      exact patternProperties_mono (fun schema hschema => hfor (by decide) schema
        (mem_schemasApplied_of_mem_members (by simp) (by simpa using halone) hschema)) hnil
  · by_cases hanswers : answersForMembers keywords = true
    · have hin : ∀ schema, schema ∈ (schemasUnder "patternProperties" keywords).map Prod.snd
          ∨ schema ∈ (schemasUnder "properties" keywords).map Prod.snd ∨ schema = argument →
          Eases judge judge' scope schema := fun schema hschema =>
        hfor (by decide) schema (mem_schemasApplied_of_answers hanswers hschema)
      exact additionalProperties_mono (fun schema hschema => hin schema (Or.inr (Or.inl hschema)))
        (fun schema hschema => hin schema (Or.inl hschema)) (hin argument (Or.inr (Or.inr rfl))) hnil
    · exact additionalProperties_of_not_answers hlookup (Bool.eq_false_iff.2 hanswers) _
  · exact propertyNames_mono (hfor (by decide) argument List.mem_cons_self) hnil
  · refine dependencies_mono (fun schemas hargument entry hentry harray => hfor (by decide) entry.2 ?_) hnil
    exact hargument ▸ mem_schemasApplied_of_dependency (by simp) hentry harray
  · refine dependencies_mono (fun schemas hargument entry hentry harray => hfor (by decide) entry.2 ?_) hnil
    exact hargument ▸ mem_schemasApplied_of_dependency (by simp) hentry harray
  · exact items_mono (hfor (by decide)) hnil
  · exact itemByItem_mono (fun schema hschema =>
      hfor (by decide) schema (mem_schemasApplied_of_mem_items (by simp) hschema)) hnil
  · exact additionalItems_mono (hfor (by decide)) hnil
  · refine contains_mono (hfor (by decide) argument List.mem_cons_self) (fun hmost => hagainst argument ?_) hnil
    simp [opposed, opposes, hmost]
  · rfl

end Judges

/-! ## Schemas that count -/

section Applied

variable {keywords : Entries Json} {keyword : String} {argument schema : Json} {draft : Draft}

lemma isSome_shape?_members (draft : Draft) : ∀ keyword ∈ memberKeywords,
    (draft.shape? keyword).isSome = true := by
  cases draft <;> decide

lemma isSome_shape?_following (h : (draft.shape? "if").isSome = true) :
    ∀ keyword ∈ ["then", "else"], (draft.shape? keyword).isSome = true := by
  revert h
  cases draft <;> decide

/-- A keyword under which schemas are applied is about something. -/
lemma effective_of_mem_schemasApplied (hlookup : Entries.lookup keyword keywords = some argument)
    (h : schema ∈ schemasApplied keywords keyword argument) : Effective keywords keyword := by
  have hplain : keyword ∉ ["definitions", "$defs", "then", "else"] := by
    intro hkeyword
    simp only [List.mem_cons, List.not_mem_nil, or_false] at hkeyword
    rcases hkeyword with rfl | rfl | rfl | rfl <;> simp [schemasApplied] at h
  simp only [List.mem_cons, List.not_mem_nil, or_false, not_or] at hplain
  refine ⟨by simp [hplain], by simp [hplain], ?_⟩
  rintro rfl
  simp only [schemasApplied] at h
  split at h
  · exact isListed_of_lookup ‹_›
  · simp at h

/-- **The schemas that a keyword applies** are applied under it, or under one that it speaks for. -/
lemma exists_mem_applied (hlookup : Entries.lookup keyword keywords = some argument)
    (hheeds : heeds draft keywords keyword = true) (h : schema ∈ schemasApplied keywords keyword argument)
    (hobject : schema.isObject = true) :
    ∃ head rest, (head :: rest, schema) ∈ applied draft keywords
      ∧ (head = keyword ∨ (keyword, head) ∈ applyingOthers) := by
  obtain ⟨head, rest, hmem, hhead⟩ := standsUnder_of_applied hlookup h hobject
  refine ⟨head, rest, ?_, hhead⟩
  rcases hhead with rfl | hhead
  · exact mem_applied_of_heeds hheeds (effective_of_mem_schemasApplied hlookup h) hmem
  · rw [heeds, Bool.and_eq_true] at hheeds
    have hother : (draft.shape? head).isSome = true → heeds draft keywords head = true := fun hshape => by
      rw [heeds, hshape, hheeds.2]
      rfl
    simp only [applyingOthers, List.mem_cons, List.not_mem_nil, or_false, Prod.mk.injEq] at hhead
    have hif : keyword = "if" → Entries.contains "if" keywords = true := by
      rintro rfl
      rw [Entries.contains_eq_isSome, hlookup]
      rfl
    rcases hhead with ⟨rfl, rfl⟩ | ⟨rfl, rfl⟩ | ⟨rfl, rfl⟩ | ⟨rfl, rfl⟩
    · exact mem_applied_of_heeds (hother (isSome_shape?_members draft _ (by decide)))
        (effective_of_not_mem (by decide)) hmem
    · exact mem_applied_of_heeds (hother (isSome_shape?_members draft _ (by decide)))
        (effective_of_not_mem (by decide)) hmem
    · exact mem_applied_of_heeds (hother (isSome_shape?_following hheeds.1 _ (by decide)))
        ⟨by decide, fun _ => hif rfl, fun hhead => absurd hhead (by decide)⟩ hmem
    · exact mem_applied_of_heeds (hother (isSome_shape?_following hheeds.1 _ (by decide)))
        ⟨by decide, fun _ => hif rfl, fun hhead => absurd hhead (by decide)⟩ hmem

/-- The keywords that may oppose. -/
lemma mem_of_opposes (h : opposes draft keywords keyword = true) :
    keyword ∈ ["not", "oneOf", "if", "contains"] := by
  unfold opposes at h
  split at h <;> simp_all

lemma exists_mem_applied_of_opposed (hlookup : Entries.lookup keyword keywords = some argument)
    (hheeds : heeds draft keywords keyword = true) (h : schema ∈ opposed draft keywords keyword argument)
    (hobject : schema.isObject = true) :
    opposes draft keywords keyword = true ∧ ∃ rest, (keyword :: rest, schema) ∈ applied draft keywords := by
  unfold opposed at h
  split at h
  · rename_i hopposes
    have hkinds : ∀ keyword ∈ ["not", "oneOf", "if", "contains"],
        keyword ∉ ["definitions", "$defs", "then", "else", "additionalItems"]
          ∧ (keyword ≠ "oneOf" → keyword ∈ Json.singleKeywords) := by decide
    obtain ⟨heffective, hsingle⟩ := hkinds keyword (mem_of_opposes hopposes)
    split at h
    · rename_i hlisted
      subst hlisted
      obtain ⟨schemas, rfl⟩ := exists_array_of_mem_items h
      obtain ⟨index, hindex⟩ := List.mem_iff_getElem?.1 h
      exact ⟨hopposes, _, mem_applied_of_heeds hheeds (effective_of_not_mem heffective)
        (Json.mem_inside_listed (by decide) hlookup hindex)⟩
    · rename_i hlisted
      obtain rfl := List.mem_singleton.1 h
      exact ⟨hopposes, _, mem_applied_of_heeds hheeds (effective_of_not_mem heffective)
        (Json.mem_inside_single (hsingle hlisted) hlookup hobject)⟩
  · simp at h

end Applied

/-! ## Keywords -/

section Keywords

variable {m m' : Matcher} {judge judge' : Judge} {scope : Scope} {keywords others : Entries Json}
  {keyword : String} {argument value : Json}

/-- A keyword that finds nothing wrong does not either if less is wrong by its schemas, or by what its
reference names. -/
lemma Allows.mono (halike : m.Alike m') (hlookup : Entries.lookup keyword keywords = some argument)
    (hreference : ∀ text, Draft.reference? keywords = some text →
      m.followReference judge scope text value = [] → m'.followReference judge' scope text value = [])
    (hfor : (scope.draft.shape? keyword).isSome = true → keyword ≠ "not" →
      ∀ schema ∈ schemasApplied keywords keyword argument, Eases judge judge' scope schema)
    (hagainst : (scope.draft.shape? keyword).isSome = true →
      ∀ schema ∈ opposed scope.draft keywords keyword argument, Eases judge' judge scope schema)
    (h : m.Allows judge scope keywords (keyword, argument) value) :
    m'.Allows judge' scope keywords (keyword, argument) value := by
  unfold Allows keywordViolations at h ⊢
  dsimp only at h ⊢
  rw [← halike.registry, ← halike.extensions, ← halike.formats]
  cases hread : Assertion.read? m.registry m.extensions keywords keyword argument with
  | some result =>
    rw [hread] at h
    cases result with
    | ok => exact h
    | error => rfl
  | none =>
    rw [hread] at h
    dsimp only at h ⊢
    cases hshape : scope.draft.shape? keyword with
    | none => rfl
    | some shape =>
      rw [hshape] at h
      simp only [Option.isNone_some, Bool.false_eq_true, if_false] at h ⊢
      split at h
      · refine hreference _ ?_ h
        rw [Draft.reference?, hlookup]
        rfl
      · obtain ⟨hassert, happly⟩ := List.append_eq_nil_iff.1 h
        exact List.append_eq_nil_iff.2 ⟨hassert, apply_mono hlookup (hfor (hshape ▸ rfl))
          (hagainst (hshape ▸ rfl)) happly⟩

/-! ## Schemas -/

section Revised

variable {R : List String → List String → Prop}
  (hrevises : Json.Revises R (.object keywords) (.object others))

include hrevises

lemma sameSiblings_of_revises : SameSiblings keywords others := by
  intro key hkey
  refine hrevises.lookup_eq ?_ ?_ <;> · rintro rfl; revert hkey; decide

lemma opposes_eq_of_revises (draft : Draft) : opposes draft keywords keyword = opposes draft others keyword := by
  unfold opposes
  rw [(sameSiblings_of_revises hrevises).containsLimits_eq]

lemma isApplied_eq_of_revises (draft : Draft) : isApplied draft keywords = isApplied draft others := by
  funext key
  simp only [isApplied, hrevises.reference?_eq, Outline.isListed, Entries.contains_eq_isSome,
    hrevises.lookup_eq (show "if" ≠ "anyOf" by decide) (by decide),
    hrevises.lookup_eq (show "items" ≠ "anyOf" by decide) (by decide)]

/-- The schemas that are applied are the same, those under `anyOf` apart. -/
lemma mem_applied_of_revises {draft : Draft} {head : String} {rest : List String} {schema : Json}
    (hhead : head ≠ "anyOf") (h : (head :: rest, schema) ∈ applied draft others) :
    (head :: rest, schema) ∈ applied draft keywords := by
  obtain ⟨hinside, happlied⟩ := List.mem_filter.1 h
  refine List.mem_filter.2 ⟨?_, isApplied_eq_of_revises hrevises draft ▸ happlied⟩
  obtain ⟨keyword, argument, hlookup, hmem⟩ := Json.mem_inside_iff.1 hinside
  obtain ⟨more, hmore⟩ := Json.exists_tail_of_mem_insideOf hmem
  obtain ⟨rfl, rfl⟩ := List.cons.inj hmore
  have hrequired : head ≠ "required" := by
    rintro rfl
    rw [Json.insideOf_of_not_mem (by decide)] at hmem
    exact absurd hmem List.not_mem_nil
  exact Json.mem_inside_iff.2 ⟨head, argument, (hrevises.lookup_eq hhead hrequired).trans hlookup, hmem⟩

lemma mem_effectiveKeywords_of_revises {draft : Draft} {argument' : Json}
    (h : (keyword, argument') ∈ effectiveKeywords draft others)
    (hlookup : Entries.lookup keyword keywords = some argument) :
    (keyword, argument) ∈ effectiveKeywords draft keywords := by
  have hmem := Entries.mem_of_lookup hlookup
  unfold effectiveKeywords at h ⊢
  rw [hrevises.reference?_eq]
  split
  · rename_i halone
    rw [if_pos halone] at h
    exact List.mem_filter.2 ⟨hmem, by simpa using (List.mem_filter.1 h).2⟩
  · exact hmem

end Revised

/-- **Judges that find less wrong**: one with the schemas that a schema applies, than the other one with those
of a schema that it revises.  No more is wrong by the schemas that count for a value, and no less by those
that count against it. -/
structure Relaxes (R : List String → List String → Prop) (judge judge' : Judge) (scope : Scope)
    (keywords others : Entries Json) : Prop where
  plain : ∀ schema, schema.isObject = false →
    Eases judge judge' scope schema ∧ Eases judge' judge scope schema
  counting : ∀ head rest schema other, head ≠ "not" → (head :: rest, schema) ∈ applied scope.draft keywords →
    (head :: rest, other) ∈ applied scope.draft others → Json.Revises R schema other →
    ∀ value, judge scope schema value = [] → judge' scope other value = []
  opposing : ∀ head rest schema other, opposes scope.draft others head = true →
    (head :: rest, schema) ∈ applied scope.draft keywords →
    (head :: rest, other) ∈ applied scope.draft others → Json.Revises R schema other →
    ∀ value, judge' scope other value = [] → judge scope schema value = []

variable {R : List String → List String → Prop}

/-- A union allows what it did before. -/
lemma Relaxes.anyOf (h : Relaxes R judge judge' scope keywords others) {members members' : Json}
    (hlookup : Entries.lookup "anyOf" keywords = some members)
    (hlookup' : Entries.lookup "anyOf" others = some members') (hmembers : Json.Revises R members members')
    (hheeds : heeds scope.draft keywords "anyOf" = true) (hheeds' : heeds scope.draft others "anyOf" = true)
    (hallows : m.Allows judge scope keywords ("anyOf", members) value) :
    m'.Allows judge' scope others ("anyOf", members') value := by
  have hmem : ∀ {keywords : Entries Json} {members schema : Json} {index : ℕ},
      Entries.lookup "anyOf" keywords = some members → heeds scope.draft keywords "anyOf" = true →
      ((members.items?).getD [])[index]? = some schema →
      (["anyOf", Pointer.indexToken index], schema) ∈ applied scope.draft keywords := by
    intro keywords members schema index hlookup hheeds hschema
    obtain ⟨schemas, rfl⟩ := exists_array_of_mem_items (List.mem_of_getElem? hschema)
    exact mem_applied_of_heeds hheeds (effective_of_not_mem (by decide))
      (Json.mem_inside_listed (by decide) hlookup hschema)
  obtain ⟨schema, hschema, hnil⟩ := allows_anyOf_iff.1 hallows
  obtain ⟨index, hindex⟩ := List.mem_iff_getElem?.1 hschema
  obtain ⟨other, hother, hrevises⟩ := hmembers.exists_item hindex
  exact allows_anyOf_iff.2 ⟨other, List.mem_of_getElem? hother, h.counting _ _ _ _ (by decide)
    (hmem hlookup hheeds hindex) (hmem hlookup' hheeds' hother) hrevises value hnil⟩

/-- Another keyword that is the same allows what it did before. -/
lemma Relaxes.allows (h : Relaxes R judge judge' scope keywords others) (halike : m.Alike m')
    (hrevises : Json.Revises R (.object keywords) (.object others))
    (hreference : ∀ text, Draft.reference? others = some text →
      m.followReference judge scope text value = [] → m'.followReference judge' scope text value = [])
    (hlookup : Entries.lookup keyword others = some argument) (hunion : keyword ≠ "anyOf")
    (hmem : (keyword, argument) ∈ effectiveKeywords scope.draft others)
    (hallows : m.Allows judge scope keywords (keyword, argument) value) :
    m'.Allows judge' scope others (keyword, argument) value := by
  have hothers : m.Allows judge scope others (keyword, argument) value :=
    (sameSiblings_of_revises hrevises).keywordViolations_eq.symm.trans hallows
  refine hothers.mono halike hlookup hreference (fun hshape hnot schema hschema => ?_)
    fun hshape schema hschema => ?_
  · by_cases hobject : schema.isObject = true
    · have href : keyword ≠ "$ref" := by
        rintro rfl
        simp [schemasApplied] at hschema
      obtain ⟨head, rest, happlied, hhead⟩ := exists_mem_applied hlookup
        (heeds_of_mem_effectiveKeywords hmem hshape href) hschema hobject
      have hother : ∀ pair ∈ applyingOthers, pair.2 ≠ "not" ∧ pair.2 ≠ "anyOf" := by decide
      have hheads : head ≠ "not" ∧ head ≠ "anyOf" := by
        rcases hhead with rfl | hhead
        · exact ⟨hnot, hunion⟩
        · exact hother _ hhead
      exact h.counting head rest schema schema hheads.1 (mem_applied_of_revises hrevises hheads.2 happlied)
        happlied (.same _)
    · exact (h.plain schema (by simpa using hobject)).1
  · by_cases hobject : schema.isObject = true
    · have href : keyword ≠ "$ref" := by
        rintro rfl
        simp [opposed, opposes] at hschema
      obtain ⟨hopposing, rest, happlied⟩ := exists_mem_applied_of_opposed hlookup
        (heeds_of_mem_effectiveKeywords hmem hshape href) hschema hobject
      exact h.opposing keyword rest schema schema hopposing (mem_applied_of_revises hrevises hunion happlied)
        happlied (.same _)
    · exact (h.plain schema (by simpa using hobject)).2

/-- **A schema that requires fewer names** than another one, and is like it otherwise, finds nothing wrong
where that one does not, if less is wrong by the schemas inside. -/
lemma nodeViolations_mono (h : Relaxes R judge judge' scope keywords others) (halike : m.Alike m')
    (hrevises : Json.Revises R (.object keywords) (.object others)) (hsorted : others.Sorted)
    (hrequired : namesRequired others ⊆ namesRequired keywords)
    (hreference : ∀ text, Draft.reference? others = some text →
      m.followReference judge scope text value = [] → m'.followReference judge' scope text value = [])
    (hnil : m.nodeViolations judge scope keywords value = []) :
    m'.nodeViolations judge' scope others value = [] := by
  rw [nodeViolations_eq_nil_iff] at hnil ⊢
  rintro ⟨keyword, argument⟩ hentry
  have hlookup := Entries.lookup_of_mem hsorted (mem_of_mem_effectiveKeywords hentry)
  by_cases hunion : keyword = "anyOf"
  · subst hunion
    obtain ⟨members, hmembers, hrevised⟩ := hrevises.exists_lookup_anyOf hlookup
    have hmem := mem_effectiveKeywords_of_revises hrevises hentry hmembers
    have hshape := Draft.isSome_shape? scope.draft "anyOf" (by decide)
    exact h.anyOf hmembers hlookup hrevised (heeds_of_mem_effectiveKeywords hmem hshape (by decide))
      (heeds_of_mem_effectiveKeywords hentry hshape (by decide)) (hnil _ hmem)
  · by_cases hsame : Entries.lookup keyword keywords = some argument
    · exact h.allows halike hrevises hreference hlookup hunion hentry
        (hnil _ (mem_effectiveKeywords_of_revises hrevises hentry hsame))
    · -- what else differs is what is required
      obtain rfl : keyword = "required" := by
        by_contra hother
        exact hsame ((hrevises.lookup_eq hunion hother).trans hlookup)
      rcases hrevises.lookup_required with heq | ⟨hnames, hnames'⟩
      · exact absurd (heq.trans hlookup) hsame
      · obtain ⟨fewer, rfl⟩ := hnames' argument hlookup
        refine (allows_required fewer).2 fun members hvalue name hname => ?_
        have hrequires : name ∈ namesRequired keywords := by
          refine hrequired ?_
          simpa [namesRequired, hlookup, Json.items?, List.mem_filterMap, Json.string?] using hname
        cases hbefore : Entries.lookup "required" keywords with
        | none => simp [namesRequired, hbefore] at hrequires
        | some before =>
          obtain ⟨names, rfl⟩ := hnames before hbefore
          refine (allows_required names).1
            (hnil _ (mem_effectiveKeywords_of_revises hrevises hentry hbefore)) members hvalue name ?_
          simpa [namesRequired, hbefore, Json.items?, List.mem_filterMap, Json.string?] using hrequires

end Keywords

end Matcher

end SchemaAlgebra
