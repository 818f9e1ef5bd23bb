import SchemaAlgebra.Proofs.Rework

/-!
# What records are about

A record of a fragment is about a schema of its document, so an object should stand where the pointer
of the record leads (`Fragment.Grounded`).  A record *dangles* at the end of a path if none does.  For
each way to build a fragment there is an equation that says where records dangle in the result, or a
lemma that they do not:

* `Fragment.dangles_withChild` — embedding a fragment makes objects of what the path leads through, and
  keeps the records that were about what has given way (`Fragment.Spares`).
* `Fragment.dangles_withChildren` — of several children under one name the last one stands there, but
  all their records do (`Fragment.Settled`).
* `Fragment.grounded_pushMember`, `Fragment.grounded_merged`, `Fragment.grounded_at?` — elsewhere records
  move along with what they are about.

They take that documents are well formed, and that records stand at the ends of paths
(`Fragment.Orderly`), which building preserves.
-/

namespace SchemaAlgebra

/-! ## Objects in a value -/

namespace Json

/-- An object stands at the end of a path. -/
def ObjectAt (value : Json) (path : List String) : Prop :=
  ∃ keywords, value.walk? path = some (.object keywords)

variable {value : Json} {members : Entries Json} {token : String} {path rest : List String}

lemma objectAt_root (members : Entries Json) : (Json.object members).ObjectAt [] :=
  ⟨members, rfl⟩

lemma objectAt_append : value.ObjectAt (path ++ rest)
    ↔ ∃ below, value.walk? path = some below ∧ below.ObjectAt rest := by
  simp only [ObjectAt, walk?_append, Option.bind_eq_some_iff]
  exact ⟨fun ⟨keywords, below, hbelow, hrest⟩ => ⟨below, hbelow, keywords, hrest⟩,
    fun ⟨below, hbelow, keywords, hrest⟩ => ⟨keywords, below, hbelow, hrest⟩⟩

lemma objectAt_member : (Json.object members).ObjectAt (token :: path)
    ↔ ∃ value, Entries.lookup token members = some value ∧ value.ObjectAt path := by
  rw [show token :: path = [token] ++ path from rfl, objectAt_append]
  refine exists_congr fun below => and_congr_left fun _ => ?_
  rw [walk?_cons]
  cases h : Entries.lookup token members <;> simp [step?, h]

lemma objectAt_item {items : List Json} : (Json.array items).ObjectAt (token :: path)
    ↔ ∃ (index : ℕ) (item : Json), token = Pointer.indexToken index ∧ items[index]? = some item
      ∧ item.ObjectAt path := by
  simp only [ObjectAt, walk?_cons, step?, Option.bind_eq_bind, Option.bind_eq_some_iff,
    Pointer.strictIndex?_eq_some]
  constructor
  · rintro ⟨keywords, item, ⟨index, htoken, hitem⟩, hrest⟩
    exact ⟨index, item, htoken, hitem, keywords, hrest⟩
  · rintro ⟨index, item, htoken, hitem, keywords, hrest⟩
    exact ⟨keywords, item, ⟨index, htoken, hitem⟩, hrest⟩

/-- What stands under another key stays. -/
lemma objectAt_congr {others : Entries Json}
    (h : ∀ token, path.head? = some token → Entries.lookup token others = Entries.lookup token members) :
    (Json.object others).ObjectAt path ↔ (Json.object members).ObjectAt path := by
  cases path with
  | nil => exact iff_of_true (objectAt_root _) (objectAt_root _)
  | cons token path => rw [objectAt_member, objectAt_member, h token rfl]

lemma objectAt_insert (hhead : path.head? ≠ some token) (value : Json) :
    (Json.object (Entries.insert token value members)).ObjectAt path
      ↔ (Json.object members).ObjectAt path :=
  objectAt_congr fun _ hother => Entries.lookup_insert_of_ne
    (fun heq => hhead (hother.trans (congrArg some heq.symm))) _ _

lemma objectAt_insert_self (value : Json) :
    (Json.object (Entries.insert token value members)).ObjectAt (token :: path)
      ↔ value.ObjectAt path := by
  rw [objectAt_member, Entries.lookup_insert_self]
  simp

/-- A way that pointers lead is one that steps lead. -/
lemma follow?_of_walk? {below : Json} (h : value.walk? path = some below) :
    value.follow? path = some below := by
  induction path generalizing value with
  | nil => exact h
  | cons token path ih =>
    rw [walk?_cons] at h
    obtain ⟨next, hnext, hrest⟩ := Option.bind_eq_some_iff.1 h
    have hstep : step? Pointer.lenientIndex? value token = some next := by
      cases value with
      | array items =>
        obtain ⟨index, hindex, hitem⟩ := Option.bind_eq_some_iff.1 hnext
        exact Option.bind_eq_some_iff.2
          ⟨index, Pointer.lenientIndex?_of_strictIndex? hindex, hitem⟩
      | _ => exact hnext
    rw [follow?_cons, hstep]
    exact ih hrest

lemma wellFormed_of_follow? {below : Json} (h : value.WellFormed)
    (hbelow : value.follow? path = some below) : below.WellFormed := by
  induction path generalizing value with
  | nil => exact Option.some.inj hbelow ▸ h
  | cons token path ih =>
    rw [follow?_cons] at hbelow
    obtain ⟨next, hnext, hrest⟩ := Option.bind_eq_some_iff.1 hbelow
    exact ih (wellFormed_of_step? h hnext) hrest

/-- A path that leads on leads through objects and arrays only. -/
lemma not_objectAt_empty (hpath : path ≠ []) : ¬ (Json.object []).ObjectAt path := by
  obtain ⟨token, path, rfl⟩ := List.exists_cons_of_ne_nil hpath
  simp [objectAt_member]

end Json

/-! ## Values at the end of a path -/

namespace Fragment

open Json (ObjectAt)

/-- The members that `insertAt` finds under a key, none if no object is there. -/
def innerMembers (token : String) (members : Entries Json) : Entries Json :=
  match Entries.lookup token members with
  | some (.object inner) => inner
  | _ => []

lemma insertAt_cons (token next : String) (path : List String) (value : Json) (members : Entries Json) :
    insertAt (token :: next :: path) value members
      = Entries.insert token (.object (insertAt (next :: path) value (innerMembers token members)))
        members :=
  rfl

/-- Objects stand everywhere along the path that leads on to a value that is set. -/
lemma objectAt_insertAt_above {path below : List String} (habove : below <+: path)
    (hne : below ≠ path) (value : Json) (members : Entries Json) :
    (Json.object (insertAt path value members)).ObjectAt below := by
  induction path generalizing below members with
  | nil => exact absurd (List.prefix_nil.1 habove) hne
  | cons token path ih =>
    cases below with
    | nil => exact Json.objectAt_root _
    | cons other below =>
      obtain ⟨rfl, hrest⟩ := List.cons_prefix_cons.1 habove
      have hrestNe : below ≠ path := fun heq => hne (heq ▸ rfl)
      cases path with
      | nil => exact absurd (List.prefix_nil.1 hrest) hrestNe
      | cons next path =>
        rw [insertAt_cons, Json.objectAt_insert_self]
        exact ih hrest hrestNe _

/-- At the end of the path stands the value. -/
lemma objectAt_insertAt_self {path : List String} (hpath : path ≠ []) (rest : List String)
    (value : Json) (members : Entries Json) :
    (Json.object (insertAt path value members)).ObjectAt (path ++ rest) ↔ value.ObjectAt rest := by
  induction path generalizing members with
  | nil => exact absurd rfl hpath
  | cons token path ih =>
    cases path with
    | nil => exact Json.objectAt_insert_self value
    | cons next path =>
      rw [insertAt_cons, List.cons_append, Json.objectAt_insert_self]
      exact ih (List.cons_ne_nil _ _) _

/-- Paths through an object that is found go on from its key. -/
lemma objectAt_innerMembers {token : String} {members : Entries Json}
    (hobject : (Json.object members).ObjectAt [token]) (rest : List String) :
    (Json.object (innerMembers token members)).ObjectAt rest
      ↔ (Json.object members).ObjectAt (token :: rest) := by
  obtain ⟨value, hvalue, inner, hinner⟩ := Json.objectAt_member.1 hobject
  obtain rfl : value = .object inner := Option.some.inj hinner
  rw [Json.objectAt_member, innerMembers, hvalue]
  simp

/-- What is no object gives way to one without members, so nothing stands further in. -/
lemma objectAt_of_innerMembers {token : String} {members : Entries Json} {rest : List String}
    (hrest : rest ≠ []) (h : (Json.object (innerMembers token members)).ObjectAt rest) :
    (Json.object members).ObjectAt [token] := by
  unfold innerMembers at h
  split at h
  · rename_i inner hinner
    exact Json.objectAt_member.2 ⟨_, hinner, Json.objectAt_root _⟩
  · exact absurd h (Json.not_objectAt_empty hrest)

/-- Where two paths run together beneath a token that they share. -/
lemma forall_prefix_cons {P : List String → Prop} {token : String} {path other : List String} (hnil : P []) :
    (∀ above, above <+: token :: path → above <+: token :: other → P above)
      ↔ ∀ above, above <+: path → above <+: other → P (token :: above) := by
  constructor
  · exact fun h above hpath hother =>
      h _ (List.cons_prefix_cons.2 ⟨rfl, hpath⟩) (List.cons_prefix_cons.2 ⟨rfl, hother⟩)
  · intro h above hpath hother
    cases above with
    | nil => exact hnil
    | cons first above =>
      obtain ⟨rfl, hrest⟩ := List.cons_prefix_cons.1 hpath
      exact h above hrest (List.cons_prefix_cons.1 hother).2

/-- Apart from the path, an object stays if only objects stand above it on the path, and gives way
otherwise. -/
lemma objectAt_insertAt_apart {path other : List String} (habove : ¬ path <+: other)
    (hbelow : ¬ other <+: path) (value : Json) (members : Entries Json) :
    (Json.object (insertAt path value members)).ObjectAt other
      ↔ (∀ above, above <+: path → above <+: other → (Json.object members).ObjectAt above)
        ∧ (Json.object members).ObjectAt other := by
  induction path generalizing other members with
  | nil => exact absurd List.nil_prefix habove
  | cons token path ih =>
    obtain ⟨head, other, rfl⟩ : ∃ head rest, other = head :: rest :=
      List.exists_cons_of_ne_nil fun hnil => hbelow (hnil ▸ List.nil_prefix)
    by_cases hhead : head = token
    · subst hhead
      have hinside : ¬ path <+: other := fun h => habove (List.cons_prefix_cons.2 ⟨rfl, h⟩)
      have houtside : ¬ other <+: path := fun h => hbelow (List.cons_prefix_cons.2 ⟨rfl, h⟩)
      have hother : other ≠ [] := fun hnil => houtside (hnil ▸ List.nil_prefix)
      cases path with
      | nil => exact absurd List.nil_prefix hinside
      | cons next path =>
        rw [insertAt_cons, Json.objectAt_insert_self, ih hinside houtside,
          forall_prefix_cons (Json.objectAt_root members)]
        constructor
        · rintro ⟨hway, hstands⟩
          have hobject := objectAt_of_innerMembers hother hstands
          simpa only [objectAt_innerMembers hobject] using And.intro hway hstands
        · rintro ⟨hway, hstands⟩
          have hobject := hway [] List.nil_prefix List.nil_prefix
          simpa only [objectAt_innerMembers hobject] using And.intro hway hstands
    · obtain ⟨below, hinsert⟩ : ∃ below, insertAt (token :: path) value members
          = Entries.insert token below members := by
        cases path <;> exact ⟨_, rfl⟩
      have hfirst : (head :: other).head? ≠ some token := fun heq => hhead (Option.some.inj heq)
      rw [hinsert, Json.objectAt_insert hfirst, iff_and_self]
      intro _ above hpath hother
      cases above with
      | nil => exact Json.objectAt_root _
      | cons first above =>
        exact absurd ((List.cons_prefix_cons.1 hother).1.symm.trans (List.cons_prefix_cons.1 hpath).1)
          hhead

lemma wellFormed_insertAt {value : Json} (hvalue : value.WellFormed) (path : List String)
    {members : Entries Json} (h : (Json.object members).WellFormed) :
    (Json.object (insertAt path value members)).WellFormed := by
  induction path generalizing members with
  | nil => exact h
  | cons token path ih =>
    cases path with
    | nil => exact Json.wellFormed_insert h hvalue
    | cons next path =>
      rw [insertAt_cons]
      refine Json.wellFormed_insert h (ih ?_)
      unfold innerMembers
      split
      · rename_i inner hinner
        exact Json.wellFormed_of_mem_members h.2 (Entries.mem_of_lookup hinner)
      · exact ⟨List.Pairwise.nil, trivial⟩

/-! ## Tables of records -/

/-- Records stand at the ends of paths, and all but that of the root are filled. -/
def Tidy (records : Table Metadata) : Prop :=
  ∀ entry ∈ records.entries, ∃ path, entry.1 = Pointer.join "" path
    ∧ (path ≠ [] → entry.2.isEmpty = false)

namespace Tidy

variable {records others : Table Metadata} {parts : List (String × Fragment)}

lemma empty : Tidy .empty :=
  fun _ hentry => absurd hentry List.not_mem_nil

lemma enter (h : Tidy records) {pairs : List (String × Metadata)}
    (hpairs : ∀ pair ∈ pairs, ∃ path, pair.1 = Pointer.join "" path
      ∧ (path ≠ [] → pair.2.isEmpty = false)) : Tidy (records.enter pairs) :=
  fun entry hentry => (Entries.mem_enter hentry).elim (hpairs entry) (h entry)

lemma clearUnder (h : Tidy records) (pre : Pointer) : Tidy (clearUnder records pre) :=
  fun entry hentry => h entry (List.mem_filter.1 hentry).1

lemma adopt (h : Tidy records) (hothers : Tidy others) (path : List String) :
    Tidy (adopt records (Pointer.join "" path) others) := by
  refine h.enter fun pair hpair => ?_
  obtain ⟨entry, hentry, rfl⟩ := List.mem_map.1 hpair
  obtain ⟨hentry, hfilled⟩ := List.mem_filter.1 hentry
  obtain ⟨rest, hrest, -⟩ := hothers entry hentry
  refine ⟨path ++ rest, ?_, fun _ => by simpa using hfilled⟩
  rw [Pointer.join_root_append, hrest]

lemma adoptAll (h : Tidy records) (path : List String) (hparts : ∀ part ∈ parts, Tidy part.2.records) :
    Tidy (adoptAll (Pointer.join "" path) records parts) := by
  induction parts generalizing records with
  | nil => exact h
  | cons part parts ih =>
    refine ih ?_ fun other hother => hparts other (List.mem_cons_of_mem _ hother)
    have hadopt := h.adopt (hparts part List.mem_cons_self) (path ++ [part.1])
    rwa [← child_join] at hadopt

lemma takeRecords (h : Tidy records) (hothers : Tidy others) (keyword : String) :
    Tidy (takeRecords others records keyword) :=
  (h.clearUnder _).enter fun pair hpair => hothers pair (List.mem_filter.1 hpair).1

lemma cutOff (h : Tidy records) (path : List String) :
    Tidy (.ofPairs (cutOff records (Pointer.join "" path))) := by
  refine empty.enter fun pair hpair => ?_
  obtain ⟨entry, hentry, rfl⟩ := List.mem_map.1 hpair
  obtain ⟨hentry, hunder⟩ := List.mem_filter.1 hentry
  obtain ⟨whole, hwhole, hfilled⟩ := h entry hentry
  rw [hwhole, Pointer.hasPrefix_join] at hunder
  obtain ⟨rest, rfl⟩ := hunder
  refine ⟨rest, ?_, fun hrest => hfilled fun hnil => hrest (List.append_eq_nil_iff.1 hnil).2⟩
  rw [hwhole, Pointer.join_root_append, Pointer.dropPrefix_append]

/-- A filled record is one that is found, but for that of the root. -/
lemma isSome_filter {f : Fragment} (h : Tidy f.records) {path : List String} (hpath : path ≠ []) :
    f.filledAt? path = f.recordAt? (Pointer.join "" path) := by
  rw [filledAt?]
  cases hrecord : f.recordAt? (Pointer.join "" path) with
  | none => rfl
  | some record =>
    obtain ⟨other, hother, hfilled⟩ := h _ (Entries.mem_of_lookup hrecord)
    rw [Option.filter_some, hfilled (Pointer.join_root_injective hother ▸ hpath)]
    rfl

lemma wellPlaced {f : Fragment} (h : Tidy f.records) : f.WellPlaced := fun entry hentry => by
  obtain ⟨path, hpath, -⟩ := h entry hentry
  exact hpath ▸ Pointer.rooted_join path

end Tidy

/-- A well-formed document with records at the ends of paths. -/
structure Orderly (f : Fragment) : Prop where
  wellFormed : f.json.WellFormed
  tidy : Tidy f.records

/-! ## Records that dangle -/

/-- A record stands at the end of a path, and no object. -/
def Dangles (f : Fragment) (path : List String) : Prop :=
  (f.recordAt? (Pointer.join "" path)).isSome = true ∧ ¬ f.json.ObjectAt path

/-- Every record leads to an object of the document. -/
def Grounded (f : Fragment) : Prop :=
  ∀ entry ∈ f.records.entries, ∃ keywords, f.json.resolve? entry.1 = some (.object keywords)

instance (f : Fragment) : Decidable f.Grounded :=
  decidable_of_iff (∀ entry ∈ f.records.entries, (f.json.resolve? entry.1).any Json.isObject = true) <|
    forall₂_congr fun entry _ => by
      cases f.json.resolve? entry.1 with
      | none => simp
      | some value => cases value <;> simp [Json.isObject]

variable {f g child : Fragment} {keyword : String} {path rest : List String}
  {children : List (String × Fragment)} {members parts : List Fragment}

lemma not_dangles_root (f : Fragment) : ¬ f.Dangles [] :=
  fun h => h.2 (Json.objectAt_root _)

lemma resolve?_join_root (f : Fragment) (path : List String) :
    f.json.resolve? (Pointer.join "" path) = f.json.walk? path := by
  rw [Json.resolve?_join]
  rfl

lemma grounded_iff_forall_not_dangles (h : Tidy f.records) : f.Grounded ↔ ∀ path, ¬ f.Dangles path := by
  constructor
  · rintro hgrounded path ⟨hrecord, hobject⟩
    obtain ⟨record, hrecord⟩ := Option.isSome_iff_exists.1 hrecord
    obtain ⟨keywords, hkeywords⟩ := hgrounded _ (Entries.mem_of_lookup hrecord)
    rw [resolve?_join_root] at hkeywords
    exact hobject ⟨keywords, hkeywords⟩
  · intro hnone entry hentry
    obtain ⟨path, hpath, -⟩ := h entry hentry
    have hrecord : f.recordAt? (Pointer.join "" path) = some entry.2 :=
      Entries.lookup_of_mem f.records.sorted (hpath ▸ hentry)
    have hobject : f.json.ObjectAt path := by
      by_contra hobject
      exact hnone path ⟨by rw [hrecord]; rfl, hobject⟩
    rw [hpath, resolve?_join_root]
    exact hobject

lemma dangles_iff_filled (h : Tidy f.records) :
    f.Dangles path ↔ (f.filledAt? path).isSome = true ∧ ¬ f.json.ObjectAt path := by
  by_cases hpath : path = []
  · subst hpath
    exact iff_of_false f.not_dangles_root fun h => h.2 (Json.objectAt_root _)
  · rw [Dangles, h.isSome_filter hpath]

/-- The same record at an object that stays or goes with it. -/
lemma dangles_congr (hrecord : g.recordAt? (Pointer.join "" path) = f.recordAt? (Pointer.join "" path))
    (hobject : g.json.ObjectAt path ↔ f.json.ObjectAt path) : g.Dangles path ↔ f.Dangles path := by
  rw [Dangles, Dangles, hrecord, hobject]

/-! ## Keywords -/

lemma dangles_withKeyword (keyword : String) (value : Json) :
    (f.withKeyword keyword value).Dangles path ↔ path.head? ≠ some keyword ∧ f.Dangles path := by
  by_cases hhead : path.head? = some keyword
  · refine iff_of_false (fun h => ?_) fun h => h.1 hhead
    have hrecord : (f.withKeyword keyword value).recordAt? (Pointer.join "" path) = none :=
      (lookup_clear _ _ _).trans (if_pos hhead)
    rw [Dangles, hrecord] at h
    exact absurd h.1 (by simp)
  · rw [dangles_congr (lookup_withKeyword hhead value) (Json.objectAt_insert hhead value)]
    exact (and_iff_right hhead).symm

lemma dangles_withoutKeyword (keyword : String) :
    (f.withoutKeyword keyword).Dangles path ↔ path.head? ≠ some keyword ∧ f.Dangles path := by
  by_cases hhead : path.head? = some keyword
  · refine iff_of_false (fun h => ?_) fun h => h.1 hhead
    have hrecord : (f.withoutKeyword keyword).recordAt? (Pointer.join "" path) = none :=
      (lookup_clear _ _ _).trans (if_pos hhead)
    rw [Dangles, hrecord] at h
    exact absurd h.1 (by simp)
  · refine (dangles_congr (lookup_withoutKeyword hhead) (Json.objectAt_congr fun token htoken => ?_)).trans
      (and_iff_right hhead).symm
    have hne : token ≠ keyword := fun heq => hhead (htoken.trans (congrArg some heq))
    rw [lookup_withoutKeyword_keywords, if_neg hne]

lemma dangles_withRequired (required : List Json) :
    (f.withRequired required).Dangles path ↔ path.head? ≠ some "required" ∧ f.Dangles path := by
  rcases f.withRequired_eq required with ⟨value, heq⟩ | heq
  · rw [heq, dangles_withKeyword]
  · rw [heq, dangles_withoutKeyword]

/-- The record of the root does not dangle, whatever it says. -/
lemma dangles_modifyRoot (change : Metadata → Metadata) :
    (f.modifyRoot change).Dangles path ↔ f.Dangles path := by
  cases path with
  | nil => exact iff_of_false (not_dangles_root _) (not_dangles_root _)
  | cons token path =>
    refine dangles_congr (Table.lookup_insert_of_ne _ ?_ _) Iff.rfl
    exact fun heq => List.cons_ne_nil _ _ (Pointer.join_root_injective (heq.symm.trans rfl))

/-! ## Embedding at a path -/

lemma withChild_eq (hpath : path ≠ []) (f child : Fragment) : f.withChild path child =
    { keywords := insertAt path child.json f.keywords
      records := adopt (clearUnder f.records (Pointer.join "" path)) (Pointer.join "" path)
        child.records } := by
  obtain ⟨token, path, rfl⟩ := List.exists_cons_of_ne_nil hpath
  rfl

/-- **Embedding at a path** leaves the objects that records are about: those beneath the end of the path
are replaced with their records, and along the path there are none but objects above the others. -/
def Spares (f : Fragment) (path : List String) : Prop :=
  ∀ other, (f.recordAt? (Pointer.join "" other)).isSome = true → path <+: other ∨ other <+: path
    ∨ ∀ above, above <+: path → above <+: other → f.json.ObjectAt above

lemma dangles_withChild_beneath (hpath : path ≠ []) (hchild : Tidy child.records) (rest : List String) :
    (f.withChild path child).Dangles (path ++ rest) ↔ child.Dangles rest := by
  have hrecord : (f.withChild path child).recordAt? (Pointer.join "" (path ++ rest))
      = child.filledAt? rest := by
    rw [withChild_eq hpath, recordAt?, Pointer.join_root_append, lookup_adopt, lookup_clearUnder,
      if_pos (Pointer.hasPrefix_append (Pointer.rooted_join rest) _), Option.or_none]
    rfl
  have hobject : (f.withChild path child).json.ObjectAt (path ++ rest) ↔ child.json.ObjectAt rest := by
    rw [withChild_eq hpath]
    exact objectAt_insertAt_self hpath rest child.json f.keywords
  rw [dangles_iff_filled hchild, Dangles, hrecord, hobject]

lemma recordAt?_withChild_apart (hpath : path ≠ []) (hchild : Tidy child.records) {other : List String}
    (hother : ¬ path <+: other) : (f.withChild path child).recordAt? (Pointer.join "" other)
      = f.recordAt? (Pointer.join "" other) := by
  rw [withChild_eq hpath]
  refine (lookup_adopt_of_not fun entry hentry heq => hother ?_).trans ?_
  · rw [← Pointer.hasPrefix_join, ← heq]
    exact Pointer.hasPrefix_append (hchild.wellPlaced entry hentry) _
  · rw [lookup_clearUnder, if_neg (by rw [Pointer.hasPrefix_join]; exact hother)]
    rfl

lemma dangles_withChild_apart (hpath : path ≠ []) (hchild : Tidy child.records) (hf : ∀ path, ¬ f.Dangles path)
    {other : List String} (hother : ¬ path <+: other) : (f.withChild path child).Dangles other
      ↔ (f.recordAt? (Pointer.join "" other)).isSome = true ∧ ¬ (other <+: path
        ∨ ∀ above, above <+: path → above <+: other → f.json.ObjectAt above) := by
  rw [Dangles, recordAt?_withChild_apart hpath hchild hother, withChild_eq hpath]
  refine and_congr_right fun hrecord => not_congr ?_
  have hstands : f.json.ObjectAt other := by
    by_contra hobject
    exact hf other ⟨hrecord, hobject⟩
  by_cases hbelow : other <+: path
  · refine iff_of_true (objectAt_insertAt_above hbelow (fun heq => hother ?_) _ _) (Or.inl hbelow)
    exact heq ▸ List.prefix_rfl
  · exact (objectAt_insertAt_apart hother hbelow child.json f.keywords).trans
      ((and_iff_left hstands).trans (or_iff_right hbelow).symm)

/-- Embedding a fragment leaves no record dangling just if it spares the records that stay. -/
lemma dangles_withChild (hf : ∀ path, ¬ f.Dangles path) (hchild : Tidy child.records)
    (hgrounded : ∀ path, ¬ child.Dangles path) (path : List String) :
    (∀ other, ¬ (f.withChild path child).Dangles other) ↔ f.Spares path := by
  by_cases hpath : path = []
  · subst hpath
    exact iff_of_true hgrounded fun other _ => Or.inl List.nil_prefix
  constructor
  · intro hnone other hrecord
    by_cases hother : path <+: other
    · exact Or.inl hother
    · right
      by_contra hlost
      exact hnone other ((dangles_withChild_apart hpath hchild hf hother).2 ⟨hrecord, hlost⟩)
  · intro hspares other hdangles
    by_cases hother : path <+: other
    · obtain ⟨rest, rfl⟩ := hother
      exact hgrounded rest ((dangles_withChild_beneath hpath hchild rest).1 hdangles)
    · obtain ⟨hrecord, hlost⟩ := (dangles_withChild_apart hpath hchild hf hother).1 hdangles
      exact hlost ((hspares other hrecord).resolve_left hother)

/-- Under a keyword there is nothing to be spared. -/
lemma spares_singleton (f : Fragment) (keyword : String) : f.Spares [keyword] := by
  intro other _
  by_cases hother : [keyword] <+: other
  · exact Or.inl hother
  · refine Or.inr (Or.inr fun above habove hbelow => ?_)
    rcases List.prefix_cons_iff.1 habove with rfl | ⟨rest, rfl, hrest⟩
    · exact Json.objectAt_root _
    · rw [List.prefix_nil.1 hrest] at hbelow
      exact absurd hbelow hother

/-! ## Embedding under names -/

/-- **Children listed under names** have what their records are about where the last child of their name
has an object. -/
def Settled (children : List (String × Fragment)) : Prop :=
  ∀ child ∈ children, ∀ path, (child.2.filledAt? path).isSome = true →
    ∃ last, Entries.lookup child.1 children.reverse = some last ∧ last.json.ObjectAt path

lemma isSome_adoptedAt? {parts : List (String × Fragment)} {token : String} :
    (adoptedAt? parts token path).isSome = true
      ↔ ∃ part ∈ parts, part.1 = token ∧ (part.2.filledAt? path).isSome = true := by
  rw [adoptedAt?, List.isSome_findSome?]
  constructor
  · rintro h
    obtain ⟨part, hpart, hfound⟩ := List.any_eq_true.1 h
    split at hfound
    · rename_i htoken
      exact ⟨part, List.mem_reverse.1 hpart, htoken, hfound⟩
    · simp at hfound
  · rintro ⟨part, hpart, htoken, hfound⟩
    exact List.any_eq_true.2 ⟨part, List.mem_reverse.2 hpart, by rw [if_pos htoken]; exact hfound⟩

/-- Setting a keyword to what holds some parts under their tokens leaves no record dangling just if it
has an object for each filled record of a part. -/
lemma dangles_adoptAll {parts : List (String × Fragment)} (hf : ∀ path, ¬ f.Dangles path)
    (hparts : ∀ part ∈ parts, Tidy part.2.records) {value : Json}
    (hkeywords : g.keywords = Entries.insert keyword value f.keywords)
    (hrecords : g.records = adoptAll (Pointer.join "" [keyword])
      (clearUnder f.records (keywordPointer keyword)) parts) :
    (∀ path, ¬ g.Dangles path) ↔ ∀ part ∈ parts, ∀ path, (part.2.filledAt? path).isSome = true →
      value.ObjectAt (part.1 :: path) := by
  have hplaced : ∀ part ∈ parts, part.2.WellPlaced := fun part hpart => (hparts part hpart).wellPlaced
  have hobject : ∀ path, g.json.ObjectAt (keyword :: path) ↔ value.ObjectAt path := fun path => by
    rw [json, hkeywords, Json.objectAt_insert_self]
  have hbeneath : ∀ token rest, g.recordAt? (Pointer.join "" (keyword :: token :: rest))
      = adoptedAt? parts token rest := fun token rest => by
    rw [recordAt?, hrecords]
    refine (lookup_adoptAll [keyword] hplaced _).trans ?_
    rw [lookup_clear, if_pos (by rfl), Option.or_none]
  constructor
  · intro hnone part hpart path hfilled
    by_contra hlost
    refine hnone (keyword :: part.1 :: path) ⟨?_, fun h => hlost ((hobject _).1 h)⟩
    rw [hbeneath]
    exact isSome_adoptedAt?.2 ⟨part, hpart, rfl, hfilled⟩
  · rintro hfound path ⟨hrecord, hlost⟩
    by_cases hhead : path.head? = some keyword
    · obtain ⟨rest, rfl⟩ := List.head?_eq_some_iff.1 hhead
      cases rest with
      | nil =>
        -- no part stands at the keyword itself
        have hnone : g.recordAt? (Pointer.join "" [keyword]) = none := by
          rw [recordAt?, hrecords, lookup_adoptAll_of_not hplaced fun part _ hunder => by
            simpa using hunder.length_le, lookup_clear, if_pos (by rfl)]
        rw [hnone] at hrecord
        simp at hrecord
      | cons token rest =>
        rw [hbeneath] at hrecord
        obtain ⟨part, hpart, rfl, hfilled⟩ := isSome_adoptedAt?.1 hrecord
        exact hlost ((hobject _).2 (hfound part hpart rest hfilled))
    · refine hf path ⟨?_, fun hobject => hlost ?_⟩
      · rwa [recordAt?, hrecords, lookup_adoptAll_of_head hplaced hhead] at hrecord
      · rw [json, hkeywords]
        exact (Json.objectAt_insert hhead value).2 hobject

/-- Setting a keyword to children leaves no record dangling just if the children are settled. -/
lemma dangles_withChildren (hf : ∀ path, ¬ f.Dangles path)
    (hchildren : ∀ child ∈ children, Tidy child.2.records) (keyword : String) :
    (∀ path, ¬ (f.withChildren keyword children).Dangles path) ↔ Settled children := by
  refine (dangles_adoptAll hf hchildren rfl (congrArg records (withChildren_eq f keyword _))).trans ?_
  refine forall₂_congr fun child _ => forall₂_congr fun path _ => ?_
  rw [Json.ofMembers, Json.objectAt_member, Entries.ofPairs, Entries.lookup_enter_reverse,
    Entries.lookup_nil, Option.or_none, ← List.map_reverse, Entries.lookup_map_value]
  simp

/-- Children under distinct names are settled, if none of them has a dangling record. -/
lemma settled_of_nodup (hnodup : (children.map Prod.fst).Nodup)
    (hchildren : ∀ child ∈ children, Tidy child.2.records ∧ ∀ path, ¬ child.2.Dangles path) :
    Settled children := by
  intro child hchild path hfilled
  obtain ⟨htidy, hgrounded⟩ := hchildren child hchild
  refine ⟨child.2, ?_, ?_⟩
  · rw [Entries.lookup_reverse hnodup]
    exact (Entries.lookup_eq_some_iff hnodup).2 hchild
  · by_contra hobject
    exact hgrounded path ((dangles_iff_filled htidy).2 ⟨hfilled, hobject⟩)

/-! ## Embedding as members of a list -/

/-- Setting a keyword to a list leaves no record dangling just if none of its members has one. -/
lemma dangles_withMembers (hf : ∀ path, ¬ f.Dangles path)
    (hmembers : ∀ member ∈ members, Tidy member.records) (keyword : String) :
    (∀ path, ¬ (f.withMembers keyword members).Dangles path)
      ↔ ∀ member ∈ members, ∀ path, ¬ member.Dangles path := by
  have hnumbered : ∀ part ∈ numbered members, Tidy part.2.records := fun part hpart => by
    obtain ⟨index, hindex, -⟩ := mem_numbered.1 hpart
    exact hmembers part.2 (List.mem_of_getElem? hindex)
  have hobject : ∀ {index : ℕ} {member : Fragment}, members[index]? = some member → ∀ path,
      (Json.array (members.map json)).ObjectAt (Pointer.indexToken index :: path)
        ↔ member.json.ObjectAt path := by
    intro index member hindex path
    have hitem : (members.map json)[index]? = some member.json := by
      rw [List.getElem?_map, hindex]
      rfl
    rw [Json.ObjectAt, Json.walk?_array hitem]
    rfl
  refine (dangles_adoptAll hf hnumbered rfl (congrArg records (withMembers_eq f keyword members))).trans ?_
  constructor
  · intro hfound member hmember path hdangles
    obtain ⟨index, hindex⟩ := List.mem_iff_getElem?.1 hmember
    obtain ⟨hfilled, hlost⟩ := (dangles_iff_filled (hmembers member hmember)).1 hdangles
    exact hlost ((hobject hindex path).1
      (hfound (Pointer.indexToken index, member) (mem_numbered.2 ⟨index, hindex, rfl⟩) path hfilled))
  · rintro hnone ⟨token, member⟩ hpart path hfilled
    obtain ⟨index, hindex, rfl⟩ := mem_numbered.1 hpart
    refine (hobject hindex path).2 (by_contra fun hlost => ?_)
    have hmember := List.mem_of_getElem? hindex
    exact hnone member hmember path ((dangles_iff_filled (hmembers member hmember)).2 ⟨hfilled, hlost⟩)

lemma pushMember_cases (f : Fragment) (keyword : String) (member : Fragment) :
    f.pushMember keyword member = f.withMembers keyword [member]
      ∨ ∃ items, f.get? keyword = some (.array items) ∧ f.pushMember keyword member =
        { keywords := Entries.insert keyword (.array (items ++ [member.json])) f.keywords
          records := adopt f.records (Pointer.join "" [keyword, Pointer.indexToken items.length])
            member.records } := by
  unfold pushMember
  split
  · rename_i items hitems
    exact Or.inr ⟨items, hitems, rfl⟩
  · exact Or.inl rfl

/-- Members that are there stay, and no record stands where the new one is put. -/
lemma not_dangles_pushMember (hf : ∀ path, ¬ f.Dangles path) {member : Fragment}
    (hmember : Tidy member.records ∧ ∀ path, ¬ member.Dangles path) (keyword : String) :
    ∀ path, ¬ (f.pushMember keyword member).Dangles path := by
  rcases pushMember_cases f keyword member with heq | ⟨items, hitems, heq⟩
  · rw [heq]
    exact (dangles_withMembers hf (fun other hother => List.mem_singleton.1 hother ▸ hmember.1) keyword).2
      fun other hother => List.mem_singleton.1 hother ▸ hmember.2
  rintro path ⟨hrecord, hlost⟩
  rw [heq] at hrecord hlost
  have hold : ∀ path, (f.recordAt? (Pointer.join "" path)).isSome = true → f.json.ObjectAt path :=
    fun path hrecord => by
      by_contra hobject
      exact hf path ⟨hrecord, hobject⟩
  -- pushing to a list moves none of its items, and touches nothing under other keywords
  have hstays : f.json.ObjectAt path →
      (Json.object (Entries.insert keyword (.array (items ++ [member.json])) f.keywords)).ObjectAt path := by
    intro hobject
    by_cases hhead : path.head? = some keyword
    · obtain ⟨rest, rfl⟩ := List.head?_eq_some_iff.1 hhead
      obtain ⟨value, hvalue, hbelow⟩ := Json.objectAt_member.1 hobject
      obtain rfl := Option.some.inj (hitems.symm.trans hvalue)
      cases rest with
      | nil => exact absurd hbelow (by simp [Json.ObjectAt])
      | cons token rest =>
        obtain ⟨index, item, htoken, hitem, hbelow⟩ := Json.objectAt_item.1 hbelow
        refine (Json.objectAt_insert_self _).2 (Json.objectAt_item.2 ⟨index, item, htoken, ?_, hbelow⟩)
        exact List.getElem?_append_left (List.getElem?_eq_some_iff.1 hitem).1 ▸ hitem
    · exact (Json.objectAt_insert hhead _).2 hobject
  by_cases hplace : [keyword, Pointer.indexToken items.length] <+: path
  · obtain ⟨rest, rfl⟩ := hplace
    rw [recordAt?, Pointer.join_root_append, lookup_adopt, ← Pointer.join_root_append,
      Option.isSome_or, Bool.or_eq_true] at hrecord
    rcases hrecord with hfilled | hrecord
    · refine hlost ((Json.objectAt_insert_self _).2 (Json.objectAt_item.2
        ⟨items.length, member.json, rfl, by simp, ?_⟩))
      by_contra hobject
      exact hmember.2 rest ((dangles_iff_filled hmember.1).2 ⟨hfilled, hobject⟩)
    · exact hlost (hstays (hold _ hrecord))
  · rw [recordAt?, lookup_adopt_of_not fun entry hentry hentryPath => hplace ?_] at hrecord
    · exact hlost (hstays (hold _ hrecord))
    · rw [← Pointer.hasPrefix_join, ← hentryPath]
      exact Pointer.hasPrefix_append (hmember.1.wellPlaced entry hentry) _

/-! ## Merging -/

/-- A fragment with the keywords of another one that are not `null`, and the records beneath them. -/
def takeOver (f part : Fragment) : Fragment where
  keywords := Entries.enter (Entries.trim part.keywords) f.keywords
  records := (Entries.keys (Entries.trim part.keywords)).foldl (takeRecords part.records) f.records

lemma merged_eq (parts : List Fragment) : merged parts = parts.foldl takeOver empty := by
  have hfold : ∀ f : Fragment, parts.foldl takeOver f =
      { keywords := (parts.map keywords).foldl (fun acc part => Entries.enter (Entries.trim part) acc)
          f.keywords
        records := parts.foldl (fun records part =>
          (Entries.keys (Entries.trim part.keywords)).foldl (takeRecords part.records) records)
          f.records } := by
    induction parts with
    | nil => exact fun _ => rfl
    | cons part parts ih =>
      intro f
      rw [List.foldl_cons, ih]
      rfl
  exact (hfold empty).symm

/-- Beneath a keyword that is taken over records dangle where they did before. -/
lemma dangles_takeOver (hsorted : g.keywords.Sorted) : (f.takeOver g).Dangles path
    ↔ if ∃ keyword ∈ Entries.keys (Entries.trim g.keywords), path.head? = some keyword then
        g.Dangles path
      else f.Dangles path := by
  have hlookup : ∀ keyword, Entries.lookup keyword (f.takeOver g).keywords
      = ((Entries.lookup keyword g.keywords).filter fun value => !value.isNull).or
        (Entries.lookup keyword f.keywords) := fun keyword => by
    refine (Entries.lookup_enter (Entries.nodup_of_sorted (hsorted.filter _)) _ _).trans ?_
    exact congrArg (Option.or · _) (Entries.lookup_filter_value (fun value : Json => !value.isNull)
      (Entries.nodup_of_sorted hsorted))
  have hrecord : (f.takeOver g).recordAt? (Pointer.join "" path) = _ :=
    lookup_foldl_takeRecords g.records _ f.records (Pointer.join "" path)
  simp only [hasPrefix_keywordPointer] at hrecord
  split
  · rename_i htaken
    rw [if_pos htaken] at hrecord
    obtain ⟨keyword, hkeyword, hhead⟩ := htaken
    obtain ⟨⟨_, value⟩, hmember, rfl⟩ := List.mem_map.1 hkeyword
    obtain ⟨hmember, hnull⟩ := List.mem_filter.1 hmember
    refine dangles_congr hrecord (Json.objectAt_congr fun token htoken => ?_)
    obtain rfl := Option.some.inj (hhead.symm.trans htoken)
    rw [hlookup, Entries.lookup_of_mem hsorted hmember, Option.filter_some, if_pos hnull, Option.some_or]
  · rename_i hkept
    rw [if_neg hkept] at hrecord
    refine dangles_congr hrecord (Json.objectAt_congr fun token htoken => ?_)
    rw [hlookup]
    have hnone : (Entries.lookup token g.keywords).filter (fun value => !value.isNull) = none := by
      by_contra hsome
      obtain ⟨value, hvalue⟩ := Option.ne_none_iff_exists'.1 hsome
      obtain ⟨hvalue, hnull⟩ := Option.filter_eq_some_iff.1 hvalue
      exact hkept ⟨token, List.mem_map.2
        ⟨_, List.mem_filter.2 ⟨Entries.mem_of_lookup hvalue, hnull⟩, rfl⟩, htoken⟩
    rw [hnone, Option.none_or]

lemma not_dangles_merged (hparts : ∀ part ∈ parts, part.keywords.Sorted ∧ ∀ path, ¬ part.Dangles path) :
    ∀ path, ¬ (merged parts).Dangles path := by
  have hfold : ∀ f : Fragment, (∀ path, ¬ f.Dangles path) →
      ∀ path, ¬ (parts.foldl takeOver f).Dangles path := by
    induction parts with
    | nil => exact fun _ hf => hf
    | cons part parts ih =>
      intro f hf
      obtain ⟨hsorted, hpart⟩ := hparts part List.mem_cons_self
      refine ih (fun other hother => hparts other (List.mem_cons_of_mem _ hother)) _ fun path hdangles => ?_
      rw [dangles_takeOver hsorted] at hdangles
      split at hdangles
      · exact hpart path hdangles
      · exact hf path hdangles
  rw [merged_eq]
  exact hfold empty fun path h => absurd h.1 (by simp [recordAt?, empty, Table.lookup, Table.empty])

/-! ## Taking out -/

/-- What is taken out stands at the end of the path, which is read leniently. -/
lemma follow?_of_at? (h : f.at? path = some child) : f.json.follow? path = some child.json := by
  obtain ⟨keywords, hkeywords, rfl⟩ := Option.map_eq_some_iff.1 h
  unfold keywordsAt? at hkeywords
  cases path with
  | nil =>
    obtain rfl := Option.some.inj hkeywords
    rfl
  | cons token path =>
    have hlookup : f.lookup? (token :: path) = f.json.follow? (token :: path) := by
      rw [Json.follow?_cons]
      rfl
    rw [hlookup] at hkeywords
    split at hkeywords
    · rename_i inner hinner
      rw [hinner, ← Option.some.inj hkeywords]
      rfl
    · simp at hkeywords

/-- What is taken out has its records with it. -/
lemma not_dangles_at? (hf : ∀ path, ¬ f.Dangles path) (h : f.at? path = some child) :
    ∀ rest, ¬ child.Dangles rest := by
  rintro rest ⟨hrecord, hlost⟩
  rw [lookup_at? h] at hrecord
  have hobject : f.json.ObjectAt (path ++ rest) := by
    by_contra hobject
    exact hf _ ⟨hrecord, hobject⟩
  obtain ⟨below, hbelow, hrest⟩ := Json.objectAt_append.1 hobject
  obtain rfl := Option.some.inj ((Json.follow?_of_walk? hbelow).symm.trans (follow?_of_at? h))
  exact hlost hrest

/-! ## What building preserves -/

namespace Orderly

lemma withKeyword (h : f.Orderly) {value : Json} (hvalue : value.WellFormed) (keyword : String) :
    (f.withKeyword keyword value).Orderly :=
  ⟨Json.wellFormed_insert h.wellFormed hvalue, h.tidy.clearUnder _⟩

lemma withoutKeyword (h : f.Orderly) (keyword : String) : (f.withoutKeyword keyword).Orderly where
  wellFormed := ⟨h.wellFormed.1.filter _, Json.membersWellFormed_iff.2 fun _ hmember =>
    Json.membersWellFormed_iff.1 h.wellFormed.2 _ (List.mem_filter.1 hmember).1⟩
  tidy := h.tidy.clearUnder _

lemma modifyRoot (h : f.Orderly) (change : Metadata → Metadata) : (f.modifyRoot change).Orderly where
  wellFormed := h.wellFormed
  tidy := fun entry hentry => (Entries.mem_insert hentry).elim
    (fun heq => ⟨[], heq ▸ rfl, fun hne => absurd rfl hne⟩) (h.tidy entry)

lemma withChild (h : f.Orderly) (hchild : child.Orderly) (path : List String) :
    (f.withChild path child).Orderly := by
  by_cases hpath : path = []
  · subst hpath
    exact hchild
  rw [withChild_eq hpath]
  exact ⟨wellFormed_insertAt hchild.wellFormed path h.wellFormed,
    (h.tidy.clearUnder _).adopt hchild.tidy path⟩

lemma withChildren (h : f.Orderly) (hchildren : ∀ child ∈ children, child.2.Orderly) (keyword : String) :
    (f.withChildren keyword children).Orderly := by
  rw [withChildren_eq]
  refine ⟨Json.wellFormed_insert h.wellFormed ⟨Entries.sorted_ofPairs _, Json.membersWellFormed_iff.2 ?_⟩,
    (h.tidy.clearUnder _).adoptAll [keyword] fun part hpart => (hchildren part hpart).tidy⟩
  intro member hmember
  rcases Entries.mem_enter hmember with hmember | hmember
  · obtain ⟨child, hchild, rfl⟩ := List.mem_map.1 hmember
    exact (hchildren child hchild).wellFormed
  · exact absurd hmember List.not_mem_nil

lemma withMembers (h : f.Orderly) (hmembers : ∀ member ∈ members, member.Orderly) (keyword : String) :
    (f.withMembers keyword members).Orderly := by
  rw [withMembers_eq]
  refine ⟨Json.wellFormed_insert h.wellFormed (Json.allWellFormed_iff.2 ?_),
    (h.tidy.clearUnder _).adoptAll [keyword] fun part hpart => ?_⟩
  · intro item hitem
    obtain ⟨member, hmember, rfl⟩ := List.mem_map.1 hitem
    exact (hmembers member hmember).wellFormed
  · obtain ⟨index, hindex, -⟩ := mem_numbered.1 hpart
    exact (hmembers part.2 (List.mem_of_getElem? hindex)).tidy

lemma pushMember (h : f.Orderly) {member : Fragment} (hmember : member.Orderly) (keyword : String) :
    (f.pushMember keyword member).Orderly := by
  rcases pushMember_cases f keyword member with heq | ⟨items, hitems, heq⟩
  · rw [heq]
    exact h.withMembers (fun other hother => List.mem_singleton.1 hother ▸ hmember) keyword
  rw [heq]
  refine ⟨Json.wellFormed_insert h.wellFormed (Json.allWellFormed_iff.2 fun item hitem => ?_),
    h.tidy.adopt hmember.tidy _⟩
  rcases List.mem_append.1 hitem with hitem | hitem
  · have hitems : (Json.array items).WellFormed :=
      Json.wellFormed_of_mem_members h.wellFormed.2 (Entries.mem_of_lookup hitems)
    exact Json.wellFormed_of_mem_items hitems hitem
  · exact List.mem_singleton.1 hitem ▸ hmember.wellFormed

lemma takeOver (h : f.Orderly) (hg : g.Orderly) : (f.takeOver g).Orderly where
  wellFormed := ⟨h.wellFormed.1.enter _, Json.membersWellFormed_iff.2 fun member hmember =>
    (Entries.mem_enter hmember).elim
      (fun hmember => Json.wellFormed_of_mem_members hg.wellFormed.2 (List.mem_filter.1 hmember).1)
      (Json.wellFormed_of_mem_members h.wellFormed.2)⟩
  tidy := by
    have hfold : ∀ (keywords : List String) (records : Table Metadata), Tidy records →
        Tidy (keywords.foldl (takeRecords g.records) records) := by
      intro keywords
      induction keywords with
      | nil => exact fun _ h => h
      | cons keyword keywords ih => exact fun _ h => ih _ (h.takeRecords hg.tidy keyword)
    exact hfold _ _ h.tidy

lemma merged (hparts : ∀ part ∈ parts, part.Orderly) : (merged parts).Orderly := by
  have hfold : ∀ f : Fragment, f.Orderly → (parts.foldl Fragment.takeOver f).Orderly := by
    induction parts with
    | nil => exact fun _ hf => hf
    | cons part parts ih =>
      exact fun f hf => ih (fun other hother => hparts other (List.mem_cons_of_mem _ hother)) _
        (hf.takeOver (hparts part List.mem_cons_self))
  rw [merged_eq]
  exact hfold empty ⟨⟨List.Pairwise.nil, trivial⟩, Tidy.empty⟩

lemma at? (h : f.Orderly) (hat : f.at? path = some child) : child.Orderly where
  wellFormed := Json.wellFormed_of_follow? h.wellFormed (follow?_of_at? hat)
  tidy := by
    obtain ⟨keywords, -, rfl⟩ := Option.map_eq_some_iff.1 hat
    exact h.tidy.cutOff path

end Orderly

end Fragment

end SchemaAlgebra
