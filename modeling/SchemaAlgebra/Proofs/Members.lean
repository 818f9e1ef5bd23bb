import SchemaAlgebra.Proofs.Carried

/-!
# Members taken out and put back

The members of a list are taken out of a schema with the records that stand beneath them, and put back
they bring along those that are filled.  So what is put in can be taken out again, less the records that
say nothing (`Fragment.filled`):

* `Fragment.withMembers_withMembers` — members that are put in replace those that were there before, with
  all that was carried for them.
* `Fragment.withMembers_filled` — whether they had empty records makes no difference.
* `Fragment.members_withMembers` — members that were put in are the members.

Records may stand under texts that no path is written as, so all of this is about pointers as texts.
-/

namespace SchemaAlgebra

/-- A list is what its places give. -/
lemma List.filterMap_range_eq_self {α : Type} {g : ℕ → Option α} {items : List α} {length : ℕ}
    (hlength : length = items.length) (h : ∀ index, index < length → g index = items[index]?) :
    (List.range length).filterMap g = items := by
  have hsome : (List.range length).map g = items.map some := by
    refine List.ext_getElem (by simp [hlength]) fun index hindex hindex' => ?_
    have hbound : index < items.length := by simpa using hindex'
    simp [h index (hlength ▸ hbound), hbound]
  calc (List.range length).filterMap g = ((List.range length).map g).filterMap id := by
        rw [List.filterMap_map]; rfl
    _ = items := by rw [hsome, List.filterMap_map]; exact List.filterMap_some

namespace Fragment

variable {f : Fragment} {keyword : String} {members : List Fragment} {path : List String}

/-! ## Fragments without empty records -/

/-- The records of which some slot is filled. -/
def filledRecords (records : Table Metadata) : Table Metadata :=
  ⟨records.entries.filter fun entry => !entry.2.isEmpty, records.sorted.filter _⟩

/-- The fragment without its empty records. -/
def filled (f : Fragment) : Fragment :=
  { f with records := filledRecords f.records }

lemma lookup_filledRecords (records : Table Metadata) (pointer : Pointer) :
    (filledRecords records).lookup pointer = (records.lookup pointer).filter fun m => !m.isEmpty :=
  Entries.lookup_filter_value (fun m : Metadata => !m.isEmpty) (Entries.nodup_of_sorted records.sorted)

lemma filledRecords_clearUnder (records : Table Metadata) (pre : Pointer) :
    filledRecords (clearUnder records pre) = clearUnder (filledRecords records) pre := by
  refine Table.ext_lookup fun pointer => ?_
  rw [lookup_filledRecords, lookup_clearUnder, lookup_clearUnder, lookup_filledRecords]
  split <;> rfl

lemma filledRecords_adopt (records embedded : Table Metadata) (pre : Pointer) :
    filledRecords (adopt records pre embedded) = adopt (filledRecords records) pre embedded := by
  refine Table.ext_lookup fun pointer => ?_
  by_cases hbeneath : ∃ rest, pre ++ rest = pointer
  · obtain ⟨rest, rfl⟩ := hbeneath
    rw [lookup_filledRecords, lookup_adopt, lookup_adopt, lookup_filledRecords]
    cases embedded.lookup rest with
    | none => simp
    | some m => cases hm : m.isEmpty <;> simp [Option.filter, hm]
  · have hapart : ∀ entry ∈ embedded.entries, pre ++ entry.1 ≠ pointer :=
      fun entry _ heq => hbeneath ⟨entry.1, heq⟩
    rw [lookup_filledRecords, lookup_adopt_of_not hapart, lookup_adopt_of_not hapart,
      lookup_filledRecords]

/-- Of an embedded fragment only the filled records are adopted. -/
lemma adopt_filledRecords (records embedded : Table Metadata) (pre : Pointer) :
    adopt records pre (filledRecords embedded) = adopt records pre embedded := by
  simp only [adopt, filledRecords, List.filter_filter, Bool.and_self]

lemma filled_filled (f : Fragment) : f.filled.filled = f.filled := by
  simp only [filled, filledRecords, List.filter_filter, Bool.and_self]


@[simp] lemma get?_filled (f : Fragment) (keyword : String) : f.filled.get? keyword = f.get? keyword :=
  rfl

@[simp] lemma isObject_filled (f : Fragment) : f.filled.isObject = f.isObject := rfl

@[simp] lemma requiredSeq_filled (f : Fragment) : f.filled.requiredSeq = f.requiredSeq := rfl

/-- An empty record tags no union. -/
@[simp] lemma unionTag?_filled (f : Fragment) : f.filled.unionTag? = f.unionTag? := by
  have hrecord : f.filled.root? = f.root?.filter fun m => !m.isEmpty := lookup_filledRecords f.records ""
  rw [unionTag?, unionTag?, hrecord]
  exact bind_filter_isEmpty (fun m hm => by simp_all [Metadata.isEmpty]) f.root?

lemma withRequired_filled (f : Fragment) (required : List Json) :
    f.filled.withRequired required = (f.withRequired required).filled := by
  unfold withRequired
  split
  · simp only [withKeyword, filled, filledRecords_clearUnder]
  · simp only [withoutKeyword, filled, filledRecords_clearUnder]

lemma filledRecords_adoptAll (base : Pointer) (records : Table Metadata)
    (parts : List (String × Fragment)) :
    filledRecords (adoptAll base records parts) = adoptAll base (filledRecords records) parts := by
  induction parts generalizing records with
  | nil => rfl
  | cons part parts ih => exact (ih _).trans (congrArg (adoptAll base · parts) (filledRecords_adopt ..))

lemma filled_withMembers (f : Fragment) (keyword : String) (members : List Fragment) :
    f.filled.withMembers keyword members = (f.withMembers keyword members).filled := by
  simp only [withMembers_eq, filled, filledRecords_adoptAll, filledRecords_clearUnder]

lemma withMembers_filled (f : Fragment) (keyword : String) (members : List Fragment) :
    f.withMembers keyword (members.map filled) = f.withMembers keyword members := by
  have hjson : (members.map filled).map json = members.map json := by
    rw [List.map_map]
    rfl
  have hadopt : ∀ (records : Table Metadata) (pre : Pointer) (member : Fragment),
      adopt records pre member.filled.records = adopt records pre member.records :=
    fun records pre member => adopt_filledRecords records member.records pre
  simp only [withMembers, hjson, List.zipIdx_map, List.foldl_map, Prod.map, hadopt, id]

/-! ## Members put back -/

lemma clearUnder_adopt_child (records embedded : Table Metadata) (base : Pointer) (token : String) :
    clearUnder (adopt records (Pointer.child base token) embedded) base = clearUnder records base := by
  refine Table.ext_lookup fun pointer => ?_
  rw [lookup_clearUnder, lookup_clearUnder]
  by_cases hbeneath : Pointer.hasPrefix pointer base = true
  · rw [if_pos hbeneath, if_pos hbeneath]
  · rw [if_neg hbeneath, if_neg hbeneath]
    refine lookup_adopt_of_not fun entry _ heq => hbeneath ?_
    simp only [Pointer.hasPrefix, Bool.or_eq_true, decide_eq_true_eq, List.isPrefixOf_iff_prefix]
    refine Or.inr ⟨Pointer.escapeChars token.toList ++ entry.1.toList, ?_⟩
    rw [← heq, String.toList_append, Pointer.toList_child]
    simp

lemma clearUnder_adoptAll (base : Pointer) (records : Table Metadata) (parts : List (String × Fragment)) :
    clearUnder (adoptAll base records parts) base = clearUnder records base := by
  induction parts generalizing records with
  | nil => rfl
  | cons part parts ih => exact (ih _).trans (clearUnder_adopt_child records part.2.records base part.1)

lemma clearUnder_clearUnder (records : Table Metadata) (pre : Pointer) :
    clearUnder (clearUnder records pre) pre = clearUnder records pre := by
  refine Table.ext_lookup fun pointer => ?_
  simp only [lookup_clearUnder]
  split <;> rfl

lemma clearUnder_comm (records : Table Metadata) (pre other : Pointer) :
    clearUnder (clearUnder records pre) other = clearUnder (clearUnder records other) pre := by
  refine Table.ext_lookup fun pointer => ?_
  simp only [lookup_clearUnder]
  split <;> split <;> rfl

/-- What is dropped afterwards need not be there before. -/
lemma clearUnder_adoptAll_clearUnder (base : Pointer) (records : Table Metadata) (pre : Pointer)
    (parts : List (String × Fragment)) : clearUnder (adoptAll base (clearUnder records pre) parts) pre
      = clearUnder (adoptAll base records parts) pre := by
  refine Table.ext_lookup fun pointer => ?_
  rw [lookup_clearUnder, lookup_clearUnder]
  split
  · rfl
  · next hapart =>
    refine lookup_adoptAll_congr ?_ base parts
    rw [lookup_clearUnder, if_neg hapart]

/-- Members replace the members before. -/
lemma withMembers_withMembers (f : Fragment) (keyword : String) (members others : List Fragment) :
    (f.withMembers keyword members).withMembers keyword others = f.withMembers keyword others := by
  have hclear : clearUnder (f.withMembers keyword members).records (keywordPointer keyword)
      = clearUnder f.records (keywordPointer keyword) := by
    rw [withMembers_eq]
    exact (clearUnder_adoptAll _ _ _).trans (clearUnder_clearUnder _ _)
  have hkeywords : Entries.insert keyword (.array (others.map json)) (f.withMembers keyword members).keywords
      = Entries.insert keyword (.array (others.map json)) f.keywords :=
    Entries.insert_insert_self _ _ _ _
  rw [withMembers_eq, hclear, hkeywords, ← withMembers_eq]

lemma recordsBeneath_filled (f : Fragment) (path : List String) :
    f.filled.recordsBeneath path = filledRecords (f.recordsBeneath path) := by
  refine Table.ext_lookup fun pointer => ?_
  rw [lookup_filledRecords, lookup_recordsBeneath, lookup_recordsBeneath]
  split
  · exact lookup_filledRecords f.records _
  · rfl

lemma at?_filled (f : Fragment) (path : List String) : f.filled.at? path = (f.at? path).map filled := by
  have hkeywords : f.filled.keywordsAt? path = f.keywordsAt? path := rfl
  rw [at?, at?, hkeywords, Option.map_map, recordsBeneath_filled]
  rfl

lemma members_filled (f : Fragment) (keyword : String) :
    f.filled.members keyword = (f.members keyword).map filled := by
  rw [members, members, get?_filled]
  split
  · rw [List.map_filterMap]
    simp only [at?_filled]
  · rfl

/-- Beneath a token stand the filled records of the parts under that token. -/
lemma lookup_recordsBeneath_adoptAll {g : Fragment} {parts : List (String × Fragment)}
    (hplaced : ∀ part ∈ parts, part.2.WellPlaced) (hrecords : g.records
      = adoptAll (Pointer.join "" [keyword]) (clearUnder f.records (keywordPointer keyword)) parts)
    (token : String) (pointer : Pointer) :
    (g.recordsBeneath [keyword, token]).lookup pointer = adoptedBeneath? parts token pointer := by
  rw [lookup_recordsBeneath]
  split
  · next hbeneath =>
    have hpointer := Pointer.rooted_of_hasPrefix_append (by simp [Pointer.join]) hbeneath
    have hcleared : (clearUnder f.records (keywordPointer keyword)).lookup
        (Pointer.join "" ([keyword] ++ [token]) ++ pointer) = none := by
      rw [lookup_clearUnder, if_pos]
      rw [Pointer.join_root_append, String.append_assoc]
      exact Pointer.hasPrefix_append ((Pointer.rooted_join _).append hpointer) _
    rw [hrecords]
    refine (lookup_adoptAll_beneath [keyword] hplaced hpointer _).trans ?_
    rw [hcleared, Option.or_none]
  · next hapart =>
    -- no part has a record that would stand elsewhere
    refine (List.findSome?_eq_none_iff.2 fun part hpart => ?_).symm
    have hnone : part.2.recordAt? pointer = none :=
      Entries.lookup_eq_none_of_forall fun entry hentry heq => hapart <|
        Pointer.hasPrefix_append (heq ▸ hplaced part (List.mem_reverse.1 hpart) entry hentry) _
    rw [hnone, Option.filter_none, ite_self]

lemma members_of_array {items : List Json} (hitems : f.get? keyword = some (.array items)) :
    f.members keyword = (List.range items.length).filterMap fun index =>
      f.at? [keyword, Pointer.indexToken index] := by
  rw [Fragment.members, hitems]

lemma members_of_not_array (h : ∀ items, f.get? keyword ≠ some (.array items)) :
    f.members keyword = [] := by
  unfold Fragment.members
  split
  · next items hitems => exact absurd hitems (h items)
  · rfl

/-- The keywords of an item, if it is an object. -/
lemma keywordsAt?_index {items : List Json} (hitems : f.get? keyword = some (.array items)) (index : ℕ) :
    f.keywordsAt? [keyword, Pointer.indexToken index] = items[index]?.bind Json.members? := by
  have hindex : Pointer.lenientIndex? (Pointer.indexToken index) = some index :=
    Pointer.lenientIndex?_of_strictIndex? (Pointer.strictIndex?_eq_some.2 rfl)
  have hlookup : f.lookup? [keyword, Pointer.indexToken index] = items[index]? := by
    simp only [lookup?, hitems, bind, Option.bind_some, Json.follow?_cons, Json.step?, hindex,
      Json.follow?_nil]
    exact Option.bind_fun_some _
  rw [keywordsAt?, hlookup]
  cases items[index]? with
  | none => rfl
  | some item => cases item <;> rfl

/-- The keywords of an object among the items of a list. -/
lemma keywordsAt?_item {items : List Json} {keywords : Entries Json} {index : ℕ}
    (hitems : f.get? keyword = some (.array items)) (hitem : items[index]? = some (.object keywords)) :
    f.keywordsAt? [keyword, Pointer.indexToken index] = some keywords := by
  rw [keywordsAt?_index hitems, hitem]
  rfl

/-- A list of objects is what is taken out of it. -/
lemma json_members {items : List Json} (hitems : f.get? keyword = some (.array items))
    (hobjects : ∀ item ∈ items, ∃ keywords, item = .object keywords) :
    (f.members keyword).map json = items := by
  rw [members_of_array hitems, List.map_filterMap]
  refine List.filterMap_range_eq_self rfl fun index hindex => ?_
  have hitem : items[index]? = some items[index] := List.getElem?_eq_getElem hindex
  obtain ⟨keywords, hkeywords⟩ := hobjects _ (List.getElem_mem hindex)
  rw [hkeywords] at hitem
  rw [at?, keywordsAt?_item hitems hitem, hitem]
  rfl

lemma recordsBeneath_withMembers (f : Fragment) (keyword : String) {members : List Fragment}
    {member : Fragment} {index : ℕ} (hplaced : ∀ member ∈ members, member.WellPlaced)
    (hmember : members[index]? = some member) :
    (f.withMembers keyword members).recordsBeneath [keyword, Pointer.indexToken index]
      = filledRecords member.records := by
  have hnumbered : (Pointer.indexToken index, member) ∈ numbered members :=
    mem_numbered.2 ⟨index, hmember, rfl⟩
  refine Table.ext_lookup fun pointer => ?_
  rw [lookup_recordsBeneath_adoptAll (placed_numbered hplaced)
      (congrArg records (withMembers_eq f keyword members)),
    adoptedBeneath?_of_mem (nodup_numbered members) hnumbered, lookup_filledRecords]
  rfl

/-- **Members put in** are taken out again without their empty records. -/
lemma members_withMembers (f : Fragment) (keyword : String) {members : List Fragment}
    (hplaced : ∀ member ∈ members, member.WellPlaced) :
    (f.withMembers keyword members).members keyword = members.map filled := by
  have hitems : (f.withMembers keyword members).get? keyword = some (.array (members.map json)) :=
    Entries.lookup_insert_self _ _ _
  have hat : ∀ index, index < members.length →
      (f.withMembers keyword members).at? [keyword, Pointer.indexToken index]
        = (members.map filled)[index]? := by
    intro index hindex
    have hmember : members[index]? = some members[index] := List.getElem?_eq_getElem hindex
    have hitem : (members.map json)[index]? = some members[index].json := by
      rw [List.getElem?_map, hmember]
      rfl
    rw [at?, keywordsAt?_item hitems hitem, recordsBeneath_withMembers f keyword hplaced hmember,
      List.getElem?_map, hmember]
    rfl
  rw [members_of_array hitems, List.length_map]
  exact List.filterMap_range_eq_self (by simp) hat

lemma wellPlaced_of_mem_members {member : Fragment} (h : member ∈ f.members keyword) :
    member.WellPlaced := by
  obtain ⟨index, schemas, hat, -, -⟩ := mem_members h
  exact wellPlaced_at? hat (List.cons_ne_nil _ _)

end Fragment

end SchemaAlgebra
