import SchemaAlgebra.Proofs.Lenses

/-!
# Collections that return

The schemas under a keyword are a list of members or a collection of named children.  Either is put in
as a whole, each fragment beneath a place of its own: an index, or a name in its written form.  What was
put in is taken out again, records included:

* `Fragment.members_withMembers_portable` — members return.
* `Fragment.children_withChildren` — children return in the order of their names (`Entries.arranged`).
* `Fragment.members_pushMember` — a member that is appended stands after those that were there.

**`Fragment.collections_return`** has them together.  Records that stand where the list has no item
(`Fragment.NoneBeyond`) would be taken for those of a member that is appended; in a fragment whose records
all lead to objects there are none.
-/

namespace SchemaAlgebra

/-! ## Entries in the order of their keys -/

namespace Entries

variable {α : Type} {entries : Entries α}

/-- The entries in the order of their keys. -/
def arranged (entries : Entries α) : Entries α :=
  entries.mergeSort fun first second => decide (first.1 ≤ second.1)

lemma perm_arranged (entries : Entries α) : (arranged entries).Perm entries :=
  List.mergeSort_perm entries _

lemma nodup_arranged (hnodup : (entries.map Prod.fst).Nodup) :
    ((arranged entries).map Prod.fst).Nodup :=
  ((perm_arranged entries).map Prod.fst).nodup_iff.2 hnodup

lemma sorted_arranged (hnodup : (entries.map Prod.fst).Nodup) : (arranged entries).Sorted := by
  have hordered : (arranged entries).Pairwise fun first second => decide (first.1 ≤ second.1) = true := by
    refine List.pairwise_mergeSort (fun first second third hfirst hsecond => ?_) (fun first second => ?_)
      entries
    · exact decide_eq_true (String.le_trans (of_decide_eq_true hfirst) (of_decide_eq_true hsecond))
    · simpa using String.le_total first.1 second.1
  exact hordered.imp₂ (fun _ _ hle hne =>
    String.not_le.1 fun hge => hne (String.le_antisymm (of_decide_eq_true hle) hge))
    (List.pairwise_map.1 (nodup_arranged hnodup))

/-- Where the keys are distinct, what is found does not depend on the order. -/
lemma lookup_arranged (hnodup : (entries.map Prod.fst).Nodup) (key : String) :
    lookup key (arranged entries) = lookup key entries := by
  refine Option.ext fun value => ?_
  rw [lookup_eq_some_iff (nodup_arranged hnodup), lookup_eq_some_iff hnodup,
    (perm_arranged entries).mem_iff]

end Entries

namespace Fragment

variable {f member : Fragment} {keyword : String} {members : List Fragment}
  {children : List (String × Fragment)} {items : List Json}

lemma map_filled_eq (h : ∀ member ∈ members, member.Portable) : members.map filled = members :=
  (List.map_congr_left fun member hmember => (h member hmember).filled_eq).trans (List.map_id members)

/-! ## Members and children put in together -/

/-- **Members that were put in** are taken out again. -/
lemma members_withMembers_portable (f : Fragment) (keyword : String)
    (h : ∀ member ∈ members, member.Portable) :
    (f.withMembers keyword members).members keyword = members := by
  rw [members_withMembers f keyword fun member hmember => (h member hmember).placed, map_filled_eq h]

/-- Children are listed in the order in which they stand in the document. -/
lemma sorted_children {named : Entries Json} (hnamed : f.get? keyword = some (.object named))
    (hsorted : named.Sorted) : Entries.Sorted (f.children keyword) := by
  rw [children_eq hnamed]
  refine List.Pairwise.filterMap _ (fun first second hlt child hchild other hother => ?_)
    (List.pairwise_map.2 hsorted)
  obtain ⟨_, -, rfl⟩ := Option.map_eq_some_iff.1 hchild
  obtain ⟨_, -, rfl⟩ := Option.map_eq_some_iff.1 hother
  exact hlt

/-- **Children that were put in** under distinct names are taken out again, in the order of the names. -/
lemma children_withChildren (f : Fragment) (keyword : String) (hnodup : (children.map Prod.fst).Nodup)
    (h : ∀ child ∈ children, child.2.Portable) :
    (f.withChildren keyword children).children keyword = Entries.arranged children := by
  have hnamed := get?_withChildren f keyword children
  refine Entries.eq_of_lookup_eq (sorted_children hnamed (Entries.sorted_ofPairs _))
    (Entries.sorted_arranged hnodup) fun name => ?_
  rw [lookup_children hnamed,
    at?_withChildren f keyword hnodup (fun child hchild => (h child hchild).placed),
    Entries.lookup_arranged hnodup]
  cases hchild : Entries.lookup name children with
  | none => rfl
  | some child => exact congrArg some (h _ (Entries.mem_of_lookup hchild)).filled_eq

/-! ## A member appended -/

/-- No record stands at or beneath an index at which the list under a keyword has no item. -/
def NoneBeyond (f : Fragment) (keyword : String) : Prop :=
  ∀ items, f.get? keyword = some (.array items) → ∀ index, items.length ≤ index →
    ∀ entry ∈ f.records.entries,
      Pointer.hasPrefix entry.1 (Pointer.join "" [keyword, Pointer.indexToken index]) = false

/-- Records that all lead to objects stand at items only. -/
lemma Grounded.noneBeyond (h : f.Grounded) (keyword : String) : f.NoneBeyond keyword := by
  intro items hitems index hbeyond entry hentry
  refine Bool.eq_false_iff.2 fun hbeneath => ?_
  obtain ⟨keywords, hkeywords⟩ := h entry hentry
  have hpointer := Pointer.rooted_dropPrefix hbeneath (Pointer.join_ne_empty keyword _)
  obtain ⟨more, htokens⟩ := Pointer.tokens?_join_append [keyword, Pointer.indexToken index] hpointer
  rw [← Pointer.eq_append_dropPrefix hbeneath] at htokens
  have hnone : f.json.resolve? entry.1 = none := by
    rw [Json.resolve?_eq, htokens, Option.bind_some, List.cons_append, List.cons_append, json,
      Json.walk?_object hitems, Json.walk?_cons]
    simp [Json.step?, Pointer.strictIndex?_eq_some.2 rfl, List.getElem?_eq_none hbeyond]
  rw [hnone] at hkeywords
  exact absurd hkeywords (by simp)

/-- Neither of two items lies beneath the other. -/
lemma not_prefix_of_index_ne {index other : ℕ} (h : index ≠ other) :
    ¬ [keyword, Pointer.indexToken index] <+: [keyword, Pointer.indexToken other] := fun hbelow =>
  h (Pointer.indexToken_injective (List.cons.inj (List.cons.inj (hbelow.eq_of_length rfl)).2).1)

lemma get?_pushMember (hitems : f.get? keyword = some (.array items)) (member : Fragment) :
    (f.pushMember keyword member).get? keyword = some (.array (items ++ [member.json])) := by
  rw [pushMember_array hitems]
  exact Entries.lookup_insert_self _ _ _

/-- The items that were there keep their documents, and their records lie apart. -/
lemma at?_pushMember_of_lt (hitems : f.get? keyword = some (.array items)) (hmember : member.WellPlaced)
    {index : ℕ} (hindex : index < items.length) :
    (f.pushMember keyword member).at? [keyword, Pointer.indexToken index]
      = f.at? [keyword, Pointer.indexToken index] := by
  have hpush := pushMember_array hitems member
  have hbeneath : (f.pushMember keyword member).recordsBeneath [keyword, Pointer.indexToken index]
      = f.recordsBeneath [keyword, Pointer.indexToken index] := by
    refine recordsBeneath_apart (not_prefix_of_index_ne hindex.ne') (not_prefix_of_index_ne hindex.ne)
      fun pointer hapart => ?_
    rw [hpush, lookup_adopt_apart hmember hapart]
  rw [at?, at?, hbeneath, keywordsAt?_index (get?_pushMember hitems member), keywordsAt?_index hitems,
    List.getElem?_append_left hindex]

/-- The place after the last item is free, and then taken by the new member. -/
lemma at?_pushMember_length (hitems : f.get? keyword = some (.array items)) (hmember : member.Portable)
    (hbeyond : f.NoneBeyond keyword) :
    (f.pushMember keyword member).at? [keyword, Pointer.indexToken items.length] = some member := by
  have hrecords : (f.pushMember keyword member).recordsBeneath
      [keyword, Pointer.indexToken items.length] = member.filled.records := by
    refine recordsBeneath_adopt (List.cons_ne_nil _ _) hmember.placed
      (congrArg records (pushMember_array hitems member)) fun pointer hbeneath => ?_
    refine Entries.lookup_eq_none_of_forall fun entry hentry heq => ?_
    have hnot := hbeyond items hitems items.length le_rfl entry hentry
    rw [heq, hbeneath] at hnot
    exact Bool.noConfusion hnot
  rw [at?, hrecords, hmember.filled_eq, keywordsAt?_index (get?_pushMember hitems member),
    List.getElem?_concat_length]
  rfl

/-- **A member that is appended** stands after those that were there. -/
lemma members_pushMember (hmember : member.Portable) (hbeyond : f.NoneBeyond keyword) :
    (f.pushMember keyword member).members keyword = f.members keyword ++ [member] := by
  by_cases harray : ∃ items, f.get? keyword = some (.array items)
  · obtain ⟨items, hitems⟩ := harray
    have hearlier : ∀ index ∈ List.range items.length,
        (f.pushMember keyword member).at? [keyword, Pointer.indexToken index]
          = f.at? [keyword, Pointer.indexToken index] := fun index hindex =>
      at?_pushMember_of_lt hitems hmember.placed (List.mem_range.1 hindex)
    rw [members_of_array (get?_pushMember hitems member), members_of_array hitems, List.length_append,
      List.length_singleton, List.range_succ, List.filterMap_append, List.filterMap_congr hearlier]
    simp [at?_pushMember_length hitems hmember hbeyond]
  · -- what is there gives way to a list of the one member
    rcases pushMember_cases f keyword member with heq | ⟨items, hitems, -⟩
    · rw [heq, members_of_not_array fun items hitems => harray ⟨items, hitems⟩, List.nil_append]
      exact members_withMembers_portable f keyword fun other hother =>
        List.mem_singleton.1 hother ▸ hmember
    · exact absurd ⟨items, hitems⟩ harray

/-! ## The laws together -/

/-- **Collections return.**  Members that were put in are taken out again in their order, and children in
the order of their names, records included; a member that is appended stands after those that were there,
unless a record already stands where no item does. -/
theorem collections_return (f : Fragment) (keyword : String) :
    (∀ members : List Fragment, (∀ member ∈ members, member.Portable) →
        (f.withMembers keyword members).members keyword = members)
      ∧ (∀ children : List (String × Fragment), (children.map Prod.fst).Nodup →
        (∀ child ∈ children, child.2.Portable) →
        (f.withChildren keyword children).children keyword = Entries.arranged children)
      ∧ ∀ member : Fragment, member.Portable → f.NoneBeyond keyword →
        (f.pushMember keyword member).members keyword = f.members keyword ++ [member] :=
  ⟨fun _ => members_withMembers_portable f keyword, fun _ => children_withChildren f keyword,
    fun _ => members_pushMember⟩

/-- A choice between two schemas, the first of which has a record. -/
def choice : Fragment where
  keywords := [("anyOf", .array [.object [("type", .string "string")], .bool true])]
  records := Table.ofPairs [("/anyOf/0", { optionalMark := some true })]

/-- Members of which one index begins like another, children of which one name does, and a choice with
room for one more. -/
theorem form_collects :
    (form.withMembers "anyOf" (List.replicate 11 note)).members "anyOf" = List.replicate 11 note
      ∧ (form.withChildren "properties" [("b", note), ("a/b", form), ("a", note)]).children "properties"
        = Entries.arranged [("b", note), ("a/b", form), ("a", note)]
      ∧ choice.NoneBeyond "anyOf"
      ∧ (choice.pushMember "anyOf" form).members "anyOf" = choice.members "anyOf" ++ [form] := by
  have hnote : note.Portable := ⟨by decide +kernel, by decide +kernel⟩
  have hform : form.Portable := ⟨by decide +kernel, by decide +kernel⟩
  have hgrounded : choice.Grounded := by decide +kernel
  have hbeyond := hgrounded.noneBeyond "anyOf"
  obtain ⟨hmembers, -⟩ := collections_return form "anyOf"
  obtain ⟨-, hchildren, -⟩ := collections_return form "properties"
  obtain ⟨-, -, hpush⟩ := collections_return choice "anyOf"
  refine ⟨hmembers _ fun member hmember => List.eq_of_mem_replicate hmember ▸ hnote,
    hchildren _ (by decide) fun child hchild => ?_, hbeyond, hpush form hform hbeyond⟩
  simp only [List.mem_cons, List.not_mem_nil, or_false] at hchild
  rcases hchild with rfl | rfl | rfl
  · exact hnote
  · exact hform
  · exact hnote

end Fragment

end SchemaAlgebra
