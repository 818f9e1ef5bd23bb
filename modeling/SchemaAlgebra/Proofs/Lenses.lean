import Mathlib.Data.List.Infix
import SchemaAlgebra.Proofs.Children
import SchemaAlgebra.Proofs.Grounding

/-!
# Taking out and putting in at a path

A fragment is taken out at the end of a path (`Fragment.at?`), and put in there (`Fragment.withChild`).  The
document is a tree, changed along the tokens of the path; the records are a table, changed by comparing
texts.  Both follow the laws of a lens:

* `Fragment.at?_at?` — what is taken out of what was taken out lies at the end of both paths.
* `Fragment.at?_withChild_self` — what was put in is taken out again.
* `Fragment.withChild_withChild` — what is put in replaces what was put in before.
* `Fragment.at?_withChild_apart` — what lies apart stays, as long as objects lead to the place.

**`Fragment.child_lens`** has them together.  Where an array or a plain value is on the way it gives way to
an object, and then all that is inside is lost, wherever it lies.

Records without contents are not put in, and a record under a text that is no pointer is not put where it
would be taken out again, so two of the laws are about fragments without such records
(`Fragment.Portable`).
-/

namespace SchemaAlgebra

/-! ## Values at the end of a path -/

namespace Json

variable {value : Json} {path rest : List String}

lemma follow?_append (value : Json) (path rest : List String) :
    value.follow? (path ++ rest) = (value.follow? path).bind (·.follow? rest) := by
  rw [follow?, List.foldlM_append]
  rfl

lemma follow?_member (token : String) (members : Entries Json) (path : List String) :
    (object members).follow? (token :: path)
      = (Entries.lookup token members).bind (·.follow? path) :=
  follow?_cons _ _ _

/-- An object without members leads nowhere. -/
lemma follow?_empty (hpath : path ≠ []) : (object []).follow? path = none := by
  obtain ⟨token, path, rfl⟩ := List.exists_cons_of_ne_nil hpath
  rw [follow?_member, Entries.lookup_nil, Option.bind_none]

/-! ### Ways through objects -/

/-- Whatever a path leads through, short of its end, is an object. -/
def ClearWay (value : Json) (path : List String) : Prop :=
  ∀ above, above <+: path → above ≠ path → ∀ met, value.follow? above = some met → met.isObject = true

instance (value : Json) (path : List String) : Decidable (value.ClearWay path) :=
  decidable_of_iff
    (∀ above ∈ path.inits, above ≠ path → (value.follow? above).all isObject = true) <|
    forall_congr' fun above => by
      rw [List.mem_inits]
      refine forall₂_congr fun _ _ => ?_
      cases value.follow? above <;> simp

variable {members inner : Entries Json} {token : String}

lemma clearWay_empty (path : List String) : (object []).ClearWay path := by
  intro above _ _ met hmet
  cases above with
  | nil => exact Option.some.inj hmet ▸ rfl
  | cons token above => simp [follow?_empty] at hmet

lemma ClearWay.tail (h : (object members).ClearWay (token :: path))
    (hinner : Entries.lookup token members = some (.object inner)) : (object inner).ClearWay path := by
  intro above habove hne met hmet
  refine h (token :: above) (List.cons_prefix_cons.2 ⟨rfl, habove⟩) (fun heq => hne (List.cons.inj heq).2)
    met ?_
  rw [follow?_member, hinner, Option.bind_some, hmet]

/-- There is an object at the next step of the way, or nothing. -/
lemma ClearWay.step {next : String} (h : (object members).ClearWay (token :: next :: path)) :
    Entries.lookup token members = none
      ∨ ∃ inner, Entries.lookup token members = some (.object inner) := by
  cases hvalue : Entries.lookup token members with
  | none => exact Or.inl rfl
  | some value =>
    have hmet : (object members).follow? [token] = some value := by
      rw [follow?_member, hvalue, Option.bind_some, follow?_nil]
    have hobject := h [token] (List.cons_prefix_cons.2 ⟨rfl, List.nil_prefix⟩) (by simp) value hmet
    cases value with
    | object inner => exact Or.inr ⟨inner, rfl⟩
    | _ => exact absurd hobject (by simp [isObject])

end Json

namespace Pointer

lemma join_root_ne_empty {path : List String} (hpath : path ≠ []) : join "" path ≠ "" :=
  fun hempty => hpath (join_root_injective hempty)

/-- At or beneath a place lies what goes on with a slash, if at all. -/
lemma hasPrefix_append_iff {pre pointer : Pointer} (hpre : pre ≠ "") :
    hasPrefix (pre ++ pointer) pre = true ↔ pointer.Rooted :=
  ⟨rooted_of_hasPrefix_append hpre, fun hpointer => hasPrefix_append hpointer pre⟩

/-- A pointer lies at or beneath the ends of two paths only if one goes on from the other. -/
lemma prefix_or_prefix_of_hasPrefix {path other : List String} {pointer : Pointer}
    (hpath : path ≠ []) (hother : other ≠ []) (h : hasPrefix pointer (join "" path) = true)
    (h' : hasPrefix pointer (join "" other) = true) : path <+: other ∨ other <+: path := by
  obtain ⟨tokens, htokens⟩ :=
    tokens?_join_append path (rooted_dropPrefix h (join_root_ne_empty hpath))
  obtain ⟨others, hothers⟩ :=
    tokens?_join_append other (rooted_dropPrefix h' (join_root_ne_empty hother))
  rw [← eq_append_dropPrefix h] at htokens
  rw [← eq_append_dropPrefix h', htokens] at hothers
  exact List.prefix_or_prefix_of_prefix ⟨tokens, rfl⟩ ⟨others, (Option.some.inj hothers).symm⟩

end Pointer

namespace Fragment

variable {f child : Fragment} {path rest other : List String}

/-! ## Taking out in two steps -/

lemma keywordsAt?_eq_follow? (f : Fragment) (path : List String) :
    f.keywordsAt? path = (f.json.follow? path).bind Json.members? := by
  cases path with
  | nil => rfl
  | cons token path =>
    have hlookup : f.lookup? (token :: path) = f.json.follow? (token :: path) := by
      rw [Json.follow?_cons]
      rfl
    rw [keywordsAt?, hlookup]
    cases f.json.follow? (token :: path) with
    | none => rfl
    | some value => cases value <;> rfl

/-- All records lie beneath the root, also those under texts that are no pointers. -/
lemma recordsBeneath_nil (f : Fragment) : f.recordsBeneath [] = f.records := by
  refine Table.ext_lookup fun pointer => ?_
  rw [lookup_recordsBeneath, if_pos (by rfl)]
  exact congrArg f.records.lookup String.empty_append

lemma lookup_recordsBeneath_of_ne (hpath : path ≠ []) (f : Fragment) (pointer : Pointer) :
    (f.recordsBeneath path).lookup pointer
      = if pointer.Rooted then f.records.lookup (Pointer.join "" path ++ pointer) else none := by
  rw [lookup_recordsBeneath]
  exact if_congr (Pointer.hasPrefix_append_iff (Pointer.join_root_ne_empty hpath)) rfl rfl

lemma recordsBeneath_recordsBeneath (hrecords : child.records = f.recordsBeneath path)
    (rest : List String) : child.recordsBeneath rest = f.recordsBeneath (path ++ rest) := by
  by_cases hpath : path = []
  · subst hpath
    have hsame : child.records = f.records := hrecords.trans f.recordsBeneath_nil
    rw [recordsBeneath, hsame]
    rfl
  by_cases hrest : rest = []
  · subst hrest
    rw [recordsBeneath_nil, hrecords, List.append_nil]
  refine Table.ext_lookup fun pointer => ?_
  rw [lookup_recordsBeneath_of_ne hrest, lookup_recordsBeneath_of_ne (List.append_ne_nil_of_left_ne_nil hpath _),
    hrecords, lookup_recordsBeneath_of_ne hpath, Pointer.join_root_append, String.append_assoc]
  split
  · next hpointer => rw [if_pos ((Pointer.rooted_join rest).append hpointer)]
  · rfl

/-- **What is taken out** of what was taken out lies at the end of both paths. -/
lemma at?_at? (h : f.at? path = some child) (rest : List String) :
    child.at? rest = f.at? (path ++ rest) := by
  have hfollow := follow?_of_at? h
  obtain ⟨keywords, -, rfl⟩ := Option.map_eq_some_iff.1 h
  rw [at?, at?, keywordsAt?_eq_follow?, keywordsAt?_eq_follow?, Json.follow?_append, hfollow,
    Option.bind_some, recordsBeneath_recordsBeneath rfl]

/-! ## Putting in -/

/-- A fragment that is put in as it is: its records stand under pointers, and have contents. -/
structure Portable (f : Fragment) : Prop where
  /-- Pointers are empty or begin with a slash. -/
  placed : f.WellPlaced
  /-- Some slot of each record is filled. -/
  contents : ∀ entry ∈ f.records.entries, entry.2.isEmpty = false

lemma Portable.filled_eq (h : f.Portable) : f.filled = f := by
  have hentries : (f.records.entries.filter fun entry => !entry.2.isEmpty) = f.records.entries :=
    List.filter_eq_self.2 fun entry hentry => by rw [h.contents entry hentry]; rfl
  simp only [filled, filledRecords, hentries]

lemma follow?_insertAt_self (hpath : path ≠ []) (value : Json) (members : Entries Json) :
    (Json.object (insertAt path value members)).follow? path = some value := by
  induction path generalizing members with
  | nil => exact absurd rfl hpath
  | cons token path ih =>
    cases path with
    | nil =>
      rw [insertAt, Json.follow?_member, Entries.lookup_insert_self, Option.bind_some, Json.follow?_nil]
    | cons next path =>
      rw [insertAt_cons, Json.follow?_member, Entries.lookup_insert_self, Option.bind_some]
      exact ih (List.cons_ne_nil _ _) _

/-- Records that were put in where none stood are those beneath, but for the empty ones. -/
lemma recordsBeneath_adopt {records : Table Metadata} (hpath : path ≠ []) (hchild : child.WellPlaced)
    (hrecords : f.records = adopt records (Pointer.join "" path) child.records)
    (hfree : ∀ pointer, Pointer.hasPrefix pointer (Pointer.join "" path) = true →
      records.lookup pointer = none) :
    f.recordsBeneath path = filledRecords child.records := by
  refine Table.ext_lookup fun pointer => ?_
  rw [lookup_recordsBeneath_of_ne hpath, lookup_filledRecords, hrecords]
  split
  · next hpointer =>
    rw [lookup_adopt, hfree _ (Pointer.hasPrefix_append hpointer _), Option.or_none]
  · next hpointer =>
    have hnone : child.records.lookup pointer = none :=
      Entries.lookup_eq_none_of_forall fun entry hentry heq => hpointer (heq ▸ hchild entry hentry)
    rw [hnone, Option.filter_none]

lemma recordsBeneath_withChild (hpath : path ≠ []) (f : Fragment) (hchild : child.WellPlaced) :
    (f.withChild path child).recordsBeneath path = filledRecords child.records := by
  refine recordsBeneath_adopt hpath hchild (congrArg records (withChild_eq hpath f child))
    fun pointer hbeneath => ?_
  rw [lookup_clearUnder, if_pos hbeneath]

/-- **What was put in** is taken out again. -/
lemma at?_withChild_self (f : Fragment) (path : List String) (hchild : child.Portable) :
    (f.withChild path child).at? path = some child := by
  by_cases hpath : path = []
  · subst hpath
    exact congrArg some (congrArg₂ Fragment.mk rfl child.recordsBeneath_nil)
  have hkeywords : (f.withChild path child).keywordsAt? path = some child.keywords := by
    rw [keywordsAt?_eq_follow?, withChild_eq hpath, json, follow?_insertAt_self hpath, Option.bind_some]
    rfl
  have hrecords : filledRecords child.records = child.records := congrArg records hchild.filled_eq
  rw [at?, hkeywords, recordsBeneath_withChild hpath f hchild.placed, hrecords]
  rfl

lemma insertAt_insertAt (path : List String) (value before : Json) (members : Entries Json) :
    insertAt path value (insertAt path before members) = insertAt path value members := by
  induction path generalizing members with
  | nil => rfl
  | cons token path ih =>
    cases path with
    | nil => exact Entries.insert_insert_self _ _ _ _
    | cons next path =>
      have hinner : innerMembers token (insertAt (token :: next :: path) before members)
          = insertAt (next :: path) before (innerMembers token members) := by
        rw [insertAt_cons, innerMembers, Entries.lookup_insert_self]
      rw [insertAt_cons, hinner, ih, insertAt_cons, Entries.insert_insert_self, insertAt_cons]

/-- Records that are put in stand at and beneath the place they are put in at. -/
lemma lookup_adopt_apart {records embedded : Table Metadata} {pre pointer : Pointer}
    (hplaced : ∀ entry ∈ embedded.entries, Pointer.Rooted entry.1)
    (hapart : ¬ Pointer.hasPrefix pointer pre = true) :
    (adopt records pre embedded).lookup pointer = records.lookup pointer :=
  lookup_adopt_of_not fun entry hentry heq =>
    hapart (heq ▸ Pointer.hasPrefix_append (hplaced entry hentry) pre)

lemma clearUnder_adopt (records : Table Metadata) (pre : Pointer) {embedded : Table Metadata}
    (hplaced : ∀ entry ∈ embedded.entries, Pointer.Rooted entry.1) :
    clearUnder (adopt records pre embedded) pre = clearUnder records pre := by
  refine Table.ext_lookup fun pointer => ?_
  rw [lookup_clearUnder, lookup_clearUnder]
  split
  · rfl
  · next hapart => exact lookup_adopt_apart hplaced hapart

/-- **What is put in** replaces what was put in before. -/
lemma withChild_withChild (f : Fragment) (path : List String) (hchild : child.WellPlaced)
    (last : Fragment) : (f.withChild path child).withChild path last = f.withChild path last := by
  by_cases hpath : path = []
  · subst hpath
    rfl
  simp only [withChild_eq hpath, insertAt_insertAt, clearUnder_adopt _ _ hchild, clearUnder_clearUnder]

/-! ## Places that lie apart -/

lemma follow?_insertAt_apart {members : Entries Json} (habove : ¬ path <+: other)
    (hbelow : ¬ other <+: path) (hclear : (Json.object members).ClearWay path) (value : Json) :
    (Json.object (insertAt path value members)).follow? other = (Json.object members).follow? other := by
  induction path generalizing other members with
  | nil => exact absurd List.nil_prefix habove
  | cons token path ih =>
    obtain ⟨head, other, rfl⟩ : ∃ head rest, other = head :: rest :=
      List.exists_cons_of_ne_nil fun hnil => hbelow (hnil ▸ List.nil_prefix)
    by_cases hhead : token = head
    · subst hhead
      have hinside : ¬ path <+: other := fun h => habove (List.cons_prefix_cons.2 ⟨rfl, h⟩)
      have houtside : ¬ other <+: path := fun h => hbelow (List.cons_prefix_cons.2 ⟨rfl, h⟩)
      cases path with
      | nil => exact absurd List.nil_prefix hinside
      | cons next path =>
        rw [insertAt_cons, Json.follow?_member, Entries.lookup_insert_self, Option.bind_some,
          Json.follow?_member]
        rcases hclear.step with hnone | ⟨inner, hinner⟩
        · -- the object that is made leads to the new value only
          have hother : other ≠ [] := fun hnil => houtside (hnil ▸ List.nil_prefix)
          rw [innerMembers, hnone, ih hinside houtside (Json.clearWay_empty _), Json.follow?_empty hother,
            Option.bind_none]
        · rw [innerMembers, hinner, ih hinside houtside (hclear.tail hinner), Option.bind_some]
    · have hinsert : ∃ below, insertAt (token :: path) value members
          = Entries.insert token below members := by
        cases path <;> exact ⟨_, rfl⟩
      obtain ⟨below, hinsert⟩ := hinsert
      rw [hinsert, Json.follow?_member, Json.follow?_member, Entries.lookup_insert_of_ne hhead]

/-- What is changed at and beneath the end of a path is not seen from a place that lies apart. -/
lemma recordsBeneath_apart {g : Fragment} (habove : ¬ path <+: other) (hbelow : ¬ other <+: path)
    (h : ∀ pointer, ¬ Pointer.hasPrefix pointer (Pointer.join "" path) = true →
      g.records.lookup pointer = f.records.lookup pointer) :
    g.recordsBeneath other = f.recordsBeneath other := by
  have hpath : path ≠ [] := fun hnil => habove (hnil ▸ List.nil_prefix)
  have hother : other ≠ [] := fun hnil => hbelow (hnil ▸ List.nil_prefix)
  refine Table.ext_lookup fun pointer => ?_
  rw [lookup_recordsBeneath_of_ne hother, lookup_recordsBeneath_of_ne hother]
  split
  · next hpointer =>
    have hbeneath := Pointer.hasPrefix_append hpointer (Pointer.join "" other)
    exact h _ fun hboth =>
      (Pointer.prefix_or_prefix_of_hasPrefix hpath hother hboth hbeneath).elim habove hbelow
  · rfl

lemma recordsBeneath_withChild_apart (habove : ¬ path <+: other) (hbelow : ¬ other <+: path) (f : Fragment)
    (hchild : child.WellPlaced) :
    (f.withChild path child).recordsBeneath other = f.recordsBeneath other := by
  have hpath : path ≠ [] := fun hnil => habove (hnil ▸ List.nil_prefix)
  refine recordsBeneath_apart habove hbelow fun pointer hapart => ?_
  rw [withChild_eq hpath, lookup_adopt_apart hchild hapart, lookup_clearUnder, if_neg hapart]

/-- **What lies apart** stays, if only objects lead to the place. -/
lemma at?_withChild_apart (habove : ¬ path <+: other) (hbelow : ¬ other <+: path)
    (hclear : f.json.ClearWay path) (hchild : child.WellPlaced) :
    (f.withChild path child).at? other = f.at? other := by
  have hpath : path ≠ [] := fun hnil => habove (hnil ▸ List.nil_prefix)
  have hkeywords : (f.withChild path child).keywordsAt? other = f.keywordsAt? other := by
    rw [keywordsAt?_eq_follow?, keywordsAt?_eq_follow?, withChild_eq hpath, json,
      follow?_insertAt_apart habove hbelow hclear, json]
  rw [at?, at?, hkeywords, recordsBeneath_withChild_apart habove hbelow f hchild]

/-! ## The laws together -/

/-- **A lens.**  What is taken out of what was taken out lies at the end of both paths; what was put in is
taken out again, records included; what is put in replaces what was put in before; and what lies apart
stays, unless something other than an object is met on the way. -/
theorem child_lens (f : Fragment) (path other : List String) :
    (∀ child, f.at? path = some child → child.at? other = f.at? (path ++ other))
      ∧ (∀ child : Fragment, child.Portable → (f.withChild path child).at? path = some child)
      ∧ (∀ child last : Fragment, child.WellPlaced →
        (f.withChild path child).withChild path last = f.withChild path last)
      ∧ ∀ child : Fragment, child.WellPlaced → ¬ path <+: other → ¬ other <+: path →
        f.json.ClearWay path → (f.withChild path child).at? other = f.at? other :=
  ⟨fun _ h => at?_at? h other, fun _ => at?_withChild_self f path,
    fun _ last hchild => withChild_withChild f path hchild last,
    fun _ hchild habove hbelow hclear => at?_withChild_apart habove hbelow hclear hchild⟩

/-- A text that may be missing. -/
def note : Fragment where
  keywords := [("type", .string "string")]
  records := Table.ofPairs [("", { optionalMark := some true })]

/-- Properties of which one begins like another, with a record at each. -/
def form : Fragment where
  keywords := [("properties", .object [("a", .object []), ("a/b", .object [])])]
  records := Table.ofPairs [("/properties/a", { optionalMark := some false }),
    ("/properties/a~1b", { optionalMark := some false })]

/-- One property of the form is replaced, and the other one stays. -/
theorem form_takes_note :
    (form.withChild ["properties", "a"] note).at? ["properties", "a"] = some note
      ∧ (form.withChild ["properties", "a"] note).withChild ["properties", "a"] form
        = form.withChild ["properties", "a"] form
      ∧ (form.withChild ["properties", "a"] note).at? ["properties", "a/b"]
        = form.at? ["properties", "a/b"]
      ∧ ∃ properties, form.at? ["properties"] = some properties
        ∧ properties.at? ["a/b"] = form.at? ["properties", "a/b"] := by
  have hnote : note.Portable := ⟨by decide +kernel, by decide +kernel⟩
  obtain ⟨-, htaken, hreplaced, hstays⟩ := child_lens form ["properties", "a"] ["properties", "a/b"]
  obtain ⟨hinside, -⟩ := child_lens form ["properties"] ["a/b"]
  exact ⟨htaken note hnote, hreplaced note form hnote.placed,
    hstays note hnote.placed (by decide) (by decide) (by decide), _, rfl, hinside _ rfl⟩

end Fragment

end SchemaAlgebra
