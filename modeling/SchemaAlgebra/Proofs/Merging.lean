import SchemaAlgebra.Proofs.Grounding
import SchemaAlgebra.Proofs.Inheritance

/-!
# Merging

Merging goes over its fragments twice: once for the documents, and once for the records, which it drops
and copies keyword by keyword.  Both come to the same, one fragment after another
(`Fragment.takeOver`): what a fragment *gives* are its keywords that are not `null`, each with the records
at and beneath it.

* `Fragment.takeOver_takeOver` — taking over is associative, so a fragment that was merged of some may
  stand for them wherever fragments are merged (`Fragment.merged_merged`).
* `Fragment.get?_merged`, `Fragment.recordAt?_merged` — the last fragment that gives a keyword gives its
  value and its records.
* **`Fragment.merged_last_wins`** — both, with what follows for the order of merging.

A pointer lies beneath one keyword only (`Fragment.keyword_eq_of_hasPrefix`), so no matter how keywords are
written, the records of one are left alone when another is taken over.
-/

namespace SchemaAlgebra

namespace Fragment

variable {f g : Fragment} {parts : List Fragment} {keyword : String} {pointer : Pointer}

/-! ## What a fragment gives -/

/-- The value that merging takes from a fragment for a keyword. -/
def given? (f : Fragment) (keyword : String) : Option Json :=
  Entries.lookup keyword (Entries.trim f.keywords).reverse

/-- Some keyword that merging takes from the fragment has the pointer at or beneath it. -/
def Covers (f : Fragment) (pointer : Pointer) : Prop :=
  ∃ keyword ∈ Entries.keys (Entries.trim f.keywords),
    Pointer.hasPrefix pointer (keywordPointer keyword) = true

instance (f : Fragment) (pointer : Pointer) : Decidable (f.Covers pointer) :=
  inferInstanceAs (Decidable (∃ keyword ∈ Entries.keys (Entries.trim f.keywords), _))

lemma covers_iff : f.Covers pointer ↔ ∃ keyword, (f.given? keyword).isSome = true
    ∧ Pointer.hasPrefix pointer (keywordPointer keyword) = true := by
  refine exists_congr fun keyword => and_congr_left fun _ => ?_
  rw [given?, ← Entries.mem_keys_iff, Entries.keys, Entries.keys, List.map_reverse, List.mem_reverse]

lemma isNull_of_given? {value : Json} (hvalue : f.given? keyword = some value) :
    value.isNull = false := by
  have hmem := List.mem_reverse.1 (Entries.mem_of_lookup hvalue)
  simpa using (List.mem_filter.1 hmem).2

lemma given?_eq (hsorted : f.keywords.Sorted) (keyword : String) :
    f.given? keyword = (f.get? keyword).filter fun value => !value.isNull := by
  have htrimmed : ((Entries.trim f.keywords).map Prod.fst).Nodup :=
    Entries.nodup_of_sorted (hsorted.filter _)
  rw [given?, Entries.lookup_reverse htrimmed]
  exact Entries.lookup_filter_value (fun value : Json => !value.isNull) (Entries.nodup_of_sorted hsorted)

/-! ## Taking over -/

lemma get?_takeOver (f g : Fragment) (keyword : String) :
    (f.takeOver g).get? keyword = (g.given? keyword).or (f.get? keyword) :=
  Entries.lookup_enter_reverse _ _ _

lemma recordAt?_takeOver (f g : Fragment) (pointer : Pointer) : (f.takeOver g).recordAt? pointer
    = if g.Covers pointer then g.recordAt? pointer else f.recordAt? pointer :=
  lookup_foldl_takeRecords g.records _ f.records pointer

lemma sorted_takeOver (hf : f.keywords.Sorted) (g : Fragment) : (f.takeOver g).keywords.Sorted :=
  hf.enter _

/-- What is given is what was taken over, or else what was given before. -/
lemma given?_takeOver (hf : f.keywords.Sorted) (g : Fragment) (keyword : String) :
    (f.takeOver g).given? keyword = (g.given? keyword).or (f.given? keyword) := by
  rw [given?_eq (sorted_takeOver hf g), get?_takeOver, given?_eq hf]
  cases hvalue : g.given? keyword with
  | none => rfl
  | some value => simp [Option.filter, isNull_of_given? hvalue]

lemma covers_takeOver (hf : f.keywords.Sorted) (g : Fragment) (pointer : Pointer) :
    (f.takeOver g).Covers pointer ↔ g.Covers pointer ∨ f.Covers pointer := by
  simp only [covers_iff, given?_takeOver hf, Option.isSome_or, Bool.or_eq_true, or_and_right, exists_or]

/-- **Taking over** is associative. -/
lemma takeOver_takeOver (hf : f.keywords.Sorted) (hg : g.keywords.Sorted) (h : Fragment) :
    f.takeOver (g.takeOver h) = (f.takeOver g).takeOver h := by
  have hvalue : ∀ keyword,
      (f.takeOver (g.takeOver h)).get? keyword = ((f.takeOver g).takeOver h).get? keyword := fun keyword => by
    rw [get?_takeOver, given?_takeOver hg, get?_takeOver, get?_takeOver, Option.or_assoc]
  have hrecord : ∀ pointer, (f.takeOver (g.takeOver h)).recordAt? pointer
      = ((f.takeOver g).takeOver h).recordAt? pointer := fun pointer => by
    simp only [recordAt?_takeOver, covers_takeOver hg]
    by_cases hh : h.Covers pointer <;> simp [hh]
  refine congrArg₂ Fragment.mk ?_ (Table.ext_lookup hrecord)
  exact Entries.eq_of_lookup_eq (sorted_takeOver hf _) (sorted_takeOver (sorted_takeOver hf g) h) hvalue

/-! ## Merging what was merged -/

lemma merged_concat (parts : List Fragment) (f : Fragment) :
    merged (parts ++ [f]) = (merged parts).takeOver f := by
  rw [merged_eq, List.foldl_concat, ← merged_eq]

lemma sorted_merged (parts : List Fragment) : (merged parts).keywords.Sorted := by
  induction parts using List.reverseRecOn with
  | nil => exact List.Pairwise.nil
  | append_singleton parts f ih => exact merged_concat parts f ▸ sorted_takeOver ih f

/-- What was merged of some fragments is taken over as they would be, one after another. -/
lemma takeOver_merged (hf : f.keywords.Sorted) (parts : List Fragment) :
    f.takeOver (merged parts) = parts.foldl takeOver f := by
  induction parts using List.reverseRecOn with
  | nil =>
    have hrecords : f.records = (f.takeOver (merged [])).records := rfl
    exact congrArg₂ Fragment.mk rfl hrecords.symm
  | append_singleton parts g ih =>
    rw [merged_concat, takeOver_takeOver hf (sorted_merged parts), ih, List.foldl_concat]

/-- **Merged fragments** stand for what they were merged of. -/
lemma merged_merged (parts others more : List Fragment) :
    merged (parts ++ merged others :: more) = merged (parts ++ (others ++ more)) := by
  rw [merged_eq (parts ++ _), List.foldl_append, ← merged_eq, List.foldl_cons,
    takeOver_merged (sorted_merged parts), merged_eq (parts ++ _), List.foldl_append, ← merged_eq,
    List.foldl_append]

/-! ## The last fragment to give a keyword -/

/-- Whether a keyword has a value other than `null`. -/
def gives (f : Fragment) (keyword : String) : Bool :=
  (f.get? keyword).any fun value => !value.isNull

/-- The last of some fragments in which a keyword has a value other than `null`. -/
def lastGiving? (parts : List Fragment) (keyword : String) : Option Fragment :=
  parts.reverse.find? fun part => part.gives keyword

lemma lastGiving?_concat (parts : List Fragment) (f : Fragment) (keyword : String) :
    lastGiving? (parts ++ [f]) keyword
      = if f.gives keyword then some f else lastGiving? parts keyword := by
  rw [lastGiving?, List.reverse_concat, List.find?_cons]
  cases f.gives keyword <;> rfl

lemma isSome_given? (hsorted : f.keywords.Sorted) (keyword : String) :
    (f.given? keyword).isSome = f.gives keyword := by
  rw [given?_eq hsorted, gives]
  cases f.get? keyword with
  | none => rfl
  | some value => cases hvalue : value.isNull <;> simp [Option.filter, hvalue]

/-- A pointer beneath a keyword is covered just if the keyword is given. -/
lemma covers_iff_gives (hsorted : f.keywords.Sorted)
    (hbeneath : Pointer.hasPrefix pointer (keywordPointer keyword) = true) :
    f.Covers pointer ↔ f.gives keyword = true := by
  rw [covers_iff, ← isSome_given? hsorted]
  constructor
  · rintro ⟨other, hgiven, hother⟩
    exact keyword_eq_of_hasPrefix hbeneath hother ▸ hgiven
  · exact fun hgiven => ⟨keyword, hgiven, hbeneath⟩

/-- Each keyword has the value that the last fragment gives it. -/
lemma get?_merged (hsorted : ∀ part ∈ parts, part.keywords.Sorted) (keyword : String) :
    (merged parts).get? keyword
      = (lastGiving? parts keyword).bind fun part => part.get? keyword := by
  induction parts using List.reverseRecOn with
  | nil => rfl
  | append_singleton parts f ih =>
    obtain ⟨hparts, hlast⟩ := List.forall_mem_append.1 hsorted
    have hf : f.keywords.Sorted := hlast f (List.mem_singleton_self f)
    rw [merged_concat, get?_takeOver, ih hparts, lastGiving?_concat, given?_eq hf, gives]
    cases hvalue : f.get? keyword with
    | none => rfl
    | some value => cases hnull : value.isNull <;> simp [Option.filter, hnull, hvalue]

/-- The records at and beneath a keyword are those of the last fragment to give it. -/
lemma recordAt?_merged (hsorted : ∀ part ∈ parts, part.keywords.Sorted)
    (hbeneath : Pointer.hasPrefix pointer (keywordPointer keyword) = true) :
    (merged parts).recordAt? pointer
      = (lastGiving? parts keyword).bind fun part => part.recordAt? pointer := by
  induction parts using List.reverseRecOn with
  | nil => rfl
  | append_singleton parts f ih =>
    obtain ⟨hparts, hlast⟩ := List.forall_mem_append.1 hsorted
    have hf : f.keywords.Sorted := hlast f (List.mem_singleton_self f)
    rw [merged_concat, recordAt?_takeOver, ih hparts, lastGiving?_concat]
    simp only [covers_iff_gives hf hbeneath]
    cases f.gives keyword <;> rfl

/-- Every record lies at or beneath a keyword that is given. -/
lemma exists_lastGiving?_of_record (hsorted : ∀ part ∈ parts, part.keywords.Sorted) {record : Metadata}
    (hrecord : (merged parts).recordAt? pointer = some record) :
    ∃ keyword part, lastGiving? parts keyword = some part
      ∧ Pointer.hasPrefix pointer (keywordPointer keyword) = true := by
  induction parts using List.reverseRecOn with
  | nil => exact absurd hrecord (by simp [merged, recordAt?, Table.lookup, Table.empty])
  | append_singleton parts f ih =>
    obtain ⟨hparts, hlast⟩ := List.forall_mem_append.1 hsorted
    have hf : f.keywords.Sorted := hlast f (List.mem_singleton_self f)
    rw [merged_concat, recordAt?_takeOver] at hrecord
    split at hrecord
    · next hcovers =>
      obtain ⟨keyword, hgiven, hbeneath⟩ := covers_iff.1 hcovers
      rw [isSome_given? hf] at hgiven
      exact ⟨keyword, f, by rw [lastGiving?_concat, if_pos hgiven], hbeneath⟩
    · obtain ⟨keyword, part, hpart, hbeneath⟩ := ih hparts hrecord
      by_cases hgives : f.gives keyword = true
      · exact ⟨keyword, f, by rw [lastGiving?_concat, if_pos hgives], hbeneath⟩
      · exact ⟨keyword, part, by rw [lastGiving?_concat, if_neg hgives, hpart], hbeneath⟩

/-- **The last to give a keyword wins.**  The keywords of merged fragments are those that have a value
other than `null` in one of them; the value, and all records at and beneath the keyword, are those of the
last such fragment, and there are no other records.  So it does not matter in which order fragments are
merged together, and one without nulls and without records apart from its keywords stays as it is. -/
theorem merged_last_wins :
    (∀ parts : List Fragment, (∀ part ∈ parts, part.keywords.Sorted) →
      (∀ keyword, (merged parts).get? keyword
          = (lastGiving? parts keyword).bind fun part => part.get? keyword)
        ∧ (∀ keyword pointer, Pointer.hasPrefix pointer (keywordPointer keyword) = true →
          (merged parts).recordAt? pointer
            = (lastGiving? parts keyword).bind fun part => part.recordAt? pointer)
        ∧ ∀ pointer record, (merged parts).recordAt? pointer = some record →
          ∃ keyword part, lastGiving? parts keyword = some part
            ∧ Pointer.hasPrefix pointer (keywordPointer keyword) = true)
      ∧ (∀ first second third : Fragment,
        merged [merged [first, second], third] = merged [first, merged [second, third]])
      ∧ ∀ f : Fragment, f.Normal → merged [f] = f := by
  refine ⟨fun parts hsorted => ⟨get?_merged hsorted, fun keyword pointer => recordAt?_merged hsorted,
    fun pointer record => exists_lastGiving?_of_record hsorted⟩, fun first second third => ?_,
    fun f => Normal.merged_eq⟩
  calc merged [merged [first, second], third]
      = merged [first, second, third] := merged_merged [] [first, second] [third]
    _ = merged [first, merged [second, third]] := (merged_merged [first] [second, third] []).symm

/-- The record of what may be missing. -/
def missable : Metadata :=
  { optionalMark := some true }

/-- Keywords of which one begins like another, with records at and beneath them. -/
def draft : Fragment where
  keywords := [("a", .object []), ("a/b", .object []), ("b", .object [])]
  records := Table.ofPairs [("/a", missable), ("/a~1b", missable), ("/b/x", missable)]

/-- One of them anew, and one that is `null`. -/
def revision : Fragment where
  keywords := [("a", .null), ("a/b", .bool true)]
  records := Table.ofPairs [("", missable), ("/a", {}), ("/a~1b/c", missable)]

/-- The revision replaces `a/b` with the record at it, and leaves `a` alone; its own record is dropped. -/
theorem revision_wins :
    (merged [draft, revision]).get? "a" = some (.object [])
      ∧ (merged [draft, revision]).get? "a/b" = some (.bool true)
      ∧ (merged [draft, revision]).recordAt? "/a" = some missable
      ∧ (merged [draft, revision]).recordAt? "/a~1b" = none
      ∧ (merged [draft, revision]).recordAt? "/a~1b/c" = some missable
      ∧ (merged [draft, revision]).recordAt? "/b/x" = some missable
      ∧ (∀ record, (merged [draft, revision]).recordAt? "" ≠ some record)
      ∧ merged [draft] = draft := by
  have hsorted : ∀ part ∈ [draft, revision], part.keywords.Sorted := by
    unfold Entries.Sorted
    decide +kernel
  have hnormal : draft.Normal := ⟨hsorted draft List.mem_cons_self, by decide +kernel, by decide +kernel⟩
  obtain ⟨hmerged, -, hstays⟩ := merged_last_wins
  obtain ⟨hvalue, hrecord, hothers⟩ := hmerged [draft, revision] hsorted
  refine ⟨hvalue "a", hvalue "a/b", hrecord "a" "/a" (by decide), hrecord "a/b" "/a~1b" (by decide),
    hrecord "a/b" "/a~1b/c" (by decide), hrecord "b" "/b/x" (by decide), fun record hroot => ?_,
    hstays draft hnormal⟩
  obtain ⟨keyword, part, -, hbeneath⟩ := hothers "" record hroot
  simp [Pointer.hasPrefix, keywordPointer_ne_empty, Ne.symm (keywordPointer_ne_empty keyword)] at hbeneath

end Fragment

end SchemaAlgebra
