import Mathlib.Data.List.Sort
import SchemaAlgebra.Combinator.Object
import SchemaAlgebra.Proofs.Locations

/-!
# Where records stand

The records of a fragment stand under pointers, so they move along with what they are about if
pointers are cut off and prolonged as texts (`Pointer.hasPrefix_join`, `Pointer.eq_append_dropPrefix`).

`Fragment.transformsOn` are the transforms that a fragment carries at the end of a path.  There is an
equation for each way to take a fragment out of another, or to put one together, most of them on the
records themselves; of an embedded fragment only the records that are filled are taken over.
-/

namespace SchemaAlgebra

/-! ## Pointers as texts -/

namespace Pointer

lemma join_eq_append (base : Pointer) (tokens : List String) :
    join base tokens = base ++ join "" tokens := by
  induction tokens generalizing base with
  | nil => simp [join]
  | cons token tokens ih =>
    have hjoin : ∀ base, join base (token :: tokens) = join (base ++ "/" ++ escape token) tokens :=
      fun _ => rfl
    rw [hjoin, hjoin, ih, ih ("" ++ "/" ++ escape token)]
    simp [String.append_assoc]

lemma join_root_append (path rest : List String) :
    join "" (path ++ rest) = join "" path ++ join "" rest := by
  rw [join_append, join_eq_append (join "" path)]

lemma tokens?_join_root (tokens : List String) : tokens? (join "" tokens) = some tokens := by
  rw [tokens?_join]
  rfl

lemma join_root_injective {path path' : List String} (h : join "" path = join "" path') :
    path = path' := by
  have htokens := congrArg tokens? h
  rw [tokens?_join_root, tokens?_join_root] at htokens
  exact Option.some.inj htokens

/-- A pointer is empty or begins with a slash. -/
def Rooted (pointer : Pointer) : Prop :=
  pointer = "" ∨ ∃ rest, pointer.toList = '/' :: rest

instance (pointer : Pointer) : Decidable pointer.Rooted :=
  decidable_of_iff (pointer = "" ∨ pointer.toList.head? = some '/')
    (or_congr_right List.head?_eq_some_iff)

/-- What is prolonged beneath a place has the tokens of the place first. -/
lemma tokens?_join_append (path : List String) {pointer : Pointer} (h : pointer.Rooted) :
    ∃ more, tokens? (join "" path ++ pointer) = some (path ++ more) := by
  rcases h with rfl | ⟨rest, h⟩
  · exact ⟨[], by rw [String.append_empty, tokens?_join_root, List.append_nil]⟩
  · have htokens : tokens? (join "" path ++ pointer) = (tokens? (join "" path)).map
        (· ++ (splitSlashes rest).map fun part => String.ofList (unescapeChars part)) := by
      rw [tokens?, String.toList_append, h, tokens?]
      cases (join "" path).toList with
      | nil => rfl
      | cons c cs =>
        by_cases hc : c = '/'
        · subst hc
          simp only [List.cons_append, splitSlashes_append, List.map_append, Option.map_some]
        · simp [hc]
    rw [tokens?_join_root] at htokens
    exact ⟨_, htokens⟩

/-- The tokens before a slash are tokens of the whole. -/
lemma prefix_of_append_slash {pre path : List String} {rest : List Char}
    (h : (join "" path).toList = (join "" pre).toList ++ '/' :: rest) : pre <+: path := by
  have hpath : join "" path = join "" pre ++ String.ofList ('/' :: rest) := by
    rw [← String.toList_inj, h, String.toList_append, String.toList_ofList]
  obtain ⟨more, hmore⟩ := tokens?_join_append pre (Or.inr ⟨rest, String.toList_ofList⟩)
  rw [← hpath, tokens?_join_root] at hmore
  exact ⟨more, (Option.some.inj hmore).symm⟩

lemma rooted_join (tokens : List String) : (join "" tokens).Rooted := by
  cases tokens with
  | nil => exact Or.inl rfl
  | cons token tokens =>
    have hjoin : join "" (token :: tokens) = join ("/" ++ escape token) tokens := by
      simp [join]
    rw [hjoin, join_eq_append]
    exact Or.inr ⟨(escape token).toList ++ (join "" tokens).toList, by simp⟩

lemma Rooted.append {pointer more : Pointer} (h : pointer.Rooted) (hmore : more.Rooted) :
    (pointer ++ more).Rooted := by
  rcases h with rfl | ⟨rest, h⟩
  · rwa [String.empty_append]
  · exact Or.inr ⟨rest ++ more.toList, by simp [h]⟩

lemma hasPrefix_append {pointer : Pointer} (h : pointer.Rooted) (pre : Pointer) :
    hasPrefix (pre ++ pointer) pre = true := by
  simp only [hasPrefix, Bool.or_eq_true, decide_eq_true_eq, List.isPrefixOf_iff_prefix]
  rcases h with rfl | ⟨rest, h⟩
  · exact Or.inl (Or.inr (by simp))
  · exact Or.inr ⟨rest, by simp [h]⟩

/-- **Prefixes.**  A pointer lies at or beneath another just when its path does. -/
lemma hasPrefix_join {path pre : List String} :
    hasPrefix (join "" path) (join "" pre) = true ↔ pre <+: path := by
  constructor
  · intro h
    simp only [hasPrefix, Bool.or_eq_true, decide_eq_true_eq, List.isPrefixOf_iff_prefix] at h
    rcases h with (h | h) | ⟨rest, h⟩
    · obtain rfl : pre = [] := join_root_injective h
      exact List.nil_prefix
    · exact join_root_injective h ▸ List.prefix_rfl
    · have hpath : (join "" path).toList = (join "" pre).toList ++ '/' :: rest := by
        simpa using h.symm
      exact prefix_of_append_slash hpath
  · rintro ⟨rest, rfl⟩
    rw [join_root_append]
    exact hasPrefix_append (rooted_join rest) _

lemma rooted_dropPrefix {pointer pre : Pointer} (h : hasPrefix pointer pre = true) (hpre : pre ≠ "") :
    (dropPrefix pointer pre).Rooted := by
  simp only [hasPrefix, Bool.or_eq_true, decide_eq_true_eq, List.isPrefixOf_iff_prefix, hpre,
    false_or] at h
  rcases h with rfl | ⟨rest, h⟩
  · exact Or.inl (by rw [← String.toList_inj]; simp [dropPrefix])
  · exact Or.inr ⟨rest, by simp [dropPrefix, ← h]⟩

lemma dropPrefix_append (pre pointer : Pointer) : dropPrefix (pre ++ pointer) pre = pointer := by
  rw [← String.toList_inj]
  simp [dropPrefix]

/-- What lies at or beneath a pointer is the pointer prolonged. -/
lemma eq_append_dropPrefix {pointer pre : Pointer} (h : hasPrefix pointer pre = true) :
    pointer = pre ++ dropPrefix pointer pre := by
  simp only [hasPrefix, Bool.or_eq_true, decide_eq_true_eq, List.isPrefixOf_iff_prefix] at h
  rw [← String.toList_inj]
  rcases h with (rfl | rfl) | ⟨rest, h⟩
  · simp [dropPrefix]
  · simp [dropPrefix]
  · simp [dropPrefix, ← h]

lemma rooted_of_hasPrefix_append {pre pointer : Pointer} (hpre : pre ≠ "")
    (h : hasPrefix (pre ++ pointer) pre = true) : pointer.Rooted := by
  have hrooted := rooted_dropPrefix h hpre
  rwa [dropPrefix_append] at hrooted

/-- Places beneath different siblings differ. -/
lemma token_eq_of_append_eq {path : List String} {token other : String} {pointer more : Pointer}
    (hpointer : pointer.Rooted) (hmore : more.Rooted)
    (h : join "" (path ++ [token]) ++ pointer = join "" (path ++ [other]) ++ more) :
    token = other := by
  obtain ⟨tokens, htokens⟩ := tokens?_join_append (path ++ [token]) hpointer
  obtain ⟨others, hothers⟩ := tokens?_join_append (path ++ [other]) hmore
  rw [h, hothers] at htokens
  have hpaths : path ++ token :: tokens = path ++ other :: others := by
    simpa using (Option.some.inj htokens).symm
  exact (List.cons.inj (List.append_cancel_left hpaths)).1

end Pointer

/-! ## Entering entries -/

namespace Entries

variable {α : Type} {key : String} {pairs entries : Entries α}

lemma lookup_eq_some_iff {a : α} (h : (entries.map Prod.fst).Nodup) :
    lookup key entries = some a ↔ (key, a) ∈ entries := by
  refine ⟨mem_of_lookup, fun hmem => ?_⟩
  induction entries with
  | nil => exact absurd hmem List.not_mem_nil
  | cons entry rest ih =>
    obtain ⟨k, b⟩ := entry
    obtain ⟨hfirst, hrest⟩ := List.nodup_cons.1 h
    rcases List.mem_cons.1 hmem with hmem | hmem
    · obtain ⟨rfl, rfl⟩ := Prod.mk.inj hmem
      exact lookup_cons_self key a rest
    · have hne : k ≠ key := fun hk =>
        hfirst (List.mem_map.2 ⟨(key, a), hmem, hk.symm⟩)
      rw [lookup_cons_of_ne hne, ih hrest hmem]

lemma lookup_eq_none_of_forall (h : ∀ entry ∈ entries, entry.1 ≠ key) :
    lookup key entries = none := by
  induction entries with
  | nil => rfl
  | cons entry rest ih =>
    rw [lookup_cons_of_ne (h entry List.mem_cons_self)]
    exact ih fun entry hentry => h entry (List.mem_cons_of_mem _ hentry)

lemma lookup_append (first second : Entries α) (key : String) :
    lookup key (first ++ second) = (lookup key first).or (lookup key second) := by
  induction first with
  | nil => rfl
  | cons entry rest ih =>
    obtain ⟨k, a⟩ := entry
    by_cases hk : k = key
    · subst hk
      simp
    · rw [List.cons_append, lookup_cons_of_ne hk, lookup_cons_of_ne hk, ih]

/-- The last value given for a key stays. -/
lemma lookup_enter_reverse (pairs entries : Entries α) (key : String) :
    lookup key (enter pairs entries) = (lookup key pairs.reverse).or (lookup key entries) := by
  induction pairs generalizing entries with
  | nil => rfl
  | cons pair rest ih =>
    obtain ⟨k, a⟩ := pair
    have henter : enter ((k, a) :: rest) entries = enter rest (insert k a entries) := rfl
    rw [henter, ih, List.reverse_cons, lookup_append, Option.or_assoc]
    by_cases hk : k = key
    · subst hk
      simp
    · rw [lookup_insert_of_ne hk, lookup_cons_of_ne hk, lookup_nil, Option.none_or]

lemma lookup_reverse (h : (entries.map Prod.fst).Nodup) (key : String) :
    lookup key entries.reverse = lookup key entries := by
  have hreverse : (entries.reverse.map Prod.fst).Nodup := by
    rw [List.map_reverse]
    exact List.pairwise_reverse.2 (h.imp Ne.symm)
  ext a
  rw [lookup_eq_some_iff hreverse, lookup_eq_some_iff h, List.mem_reverse]

/-- Of entries under distinct keys all are found. -/
lemma lookup_enter (h : (pairs.map Prod.fst).Nodup) (entries : Entries α) (key : String) :
    lookup key (enter pairs entries) = (lookup key pairs).or (lookup key entries) := by
  rw [lookup_enter_reverse, lookup_reverse h]

lemma mem_enter {entry : String × α} (h : entry ∈ enter pairs entries) :
    entry ∈ pairs ∨ entry ∈ entries := by
  induction pairs generalizing entries with
  | nil => exact Or.inr h
  | cons pair rest ih =>
    rcases ih h with h | h
    · exact Or.inl (List.mem_cons_of_mem _ h)
    · rcases mem_insert h with rfl | h
      · exact Or.inl List.mem_cons_self
      · exact Or.inr h

lemma nodup_of_sorted (h : entries.Sorted) : (entries.map Prod.fst).Nodup := by
  refine List.pairwise_map.2 (h.imp fun hlt heq => ?_)
  exact String.lt_irrefl _ (heq ▸ hlt)

lemma lookup_filter (p : String → Bool) (entries : Entries α) :
    lookup key (entries.filter fun entry => p entry.1)
      = if p key then lookup key entries else none := by
  induction entries with
  | nil => simp
  | cons entry rest ih =>
    obtain ⟨k, a⟩ := entry
    by_cases hk : k = key
    · subst hk
      cases hp : p k <;> simp [hp, ih]
    · cases hp : p k <;> simp [hp, ih, lookup_cons_of_ne hk]

lemma lookup_filter_value (p : α → Bool) (h : (entries.map Prod.fst).Nodup) :
    lookup key (entries.filter fun entry => p entry.2) = (lookup key entries).filter p := by
  have hfilter : ((entries.filter fun entry => p entry.2).map Prod.fst).Nodup :=
    h.sublist (List.filter_sublist.map _)
  ext a
  rw [lookup_eq_some_iff hfilter, List.mem_filter, Option.filter_eq_some_iff, lookup_eq_some_iff h]

/-- Keys that are renamed one to one are found under their new names. -/
lemma lookup_map (entries : Entries α) (g : String → String) (key : String)
    (h : ∀ entry ∈ entries, g entry.1 = g key → entry.1 = key) :
    lookup (g key) (entries.map fun entry => (g entry.1, entry.2)) = lookup key entries := by
  induction entries with
  | nil => rfl
  | cons entry rest ih =>
    obtain ⟨k, a⟩ := entry
    have hrest := ih fun entry hentry => h entry (List.mem_cons_of_mem _ hentry)
    by_cases hk : k = key
    · subst hk
      simp
    · have hne : g k ≠ g key := fun heq => hk (h (k, a) List.mem_cons_self heq)
      simp [lookup_cons_of_ne hne, lookup_cons_of_ne hk, hrest]

lemma lookup_map_value {β : Type} (entries : Entries α) (g : α → β) (key : String) :
    lookup key (entries.map fun entry => (entry.1, g entry.2)) = (lookup key entries).map g := by
  induction entries with
  | nil => rfl
  | cons entry rest ih =>
    obtain ⟨k, a⟩ := entry
    by_cases hk : k = key
    · subst hk
      simp
    · rw [List.map_cons, lookup_cons_of_ne hk, ih, lookup_cons_of_ne hk]

/-- Under increasing keys, the look-ups say what is listed. -/
lemma eq_of_lookup_eq {others : Entries α} (h : entries.Sorted) (hothers : others.Sorted)
    (hlookup : ∀ key, lookup key entries = lookup key others) : entries = others := by
  have hasymm : Std.Asymm fun a b : String × α => a.1 < b.1 :=
    ⟨fun _ _ hab hba => String.lt_irrefl _ (String.lt_trans hab hba)⟩
  refine List.Pairwise.eq_of_mem_iff h hothers fun entry => ?_
  rw [← lookup_eq_some_iff (nodup_of_sorted h), ← lookup_eq_some_iff (nodup_of_sorted hothers),
    hlookup]

lemma insert_insert_self (key : String) (a b : α) (entries : Entries α) :
    insert key a (insert key b entries) = insert key a entries := by
  induction entries with
  | nil => simp [insert]
  | cons entry rest ih =>
    obtain ⟨k, c⟩ := entry
    by_cases hlt : k < key
    · simp [insert, hlt, ih]
    · by_cases hk : k = key
      · simp [insert, hk]
      · simp [insert, hlt, hk]

lemma erase_insert_self (key : String) (a : α) (entries : Entries α) :
    erase key (insert key a entries) = erase key entries := by
  induction entries with
  | nil => simp [insert, erase]
  | cons entry rest ih =>
    obtain ⟨k, b⟩ := entry
    by_cases hlt : k < key
    · have hne : k ≠ key := fun h => String.lt_irrefl key (h ▸ hlt)
      simpa [insert, hlt, erase, hne] using ih
    · by_cases hk : k = key
      · simp [insert, hk, erase]
      · simp [insert, hlt, hk, erase]

lemma erase_erase_self (key : String) (entries : Entries α) :
    erase key (erase key entries) = erase key entries := by
  simp [erase, List.filter_filter]

end Entries

/-- **Tables with the same look-ups** are equal. -/
lemma Table.ext_lookup {α : Type} {table other : Table α}
    (h : ∀ key, table.lookup key = other.lookup key) : table = other := by
  have hentries : table.entries = other.entries := Entries.eq_of_lookup_eq table.sorted other.sorted h
  cases table
  cases other
  cases hentries
  rfl

/-! ## Records under paths -/

namespace Fragment

/-- The transforms among records that stand at a pointer. -/
def transformsIn (records : Table Metadata) (pointer : Pointer) : Option (Table Transform) :=
  (records.lookup pointer).bind Metadata.transforms

/-- The transforms that a fragment carries at the end of a path. -/
def transformsOn (f : Fragment) (path : List String) : Option (Table Transform) :=
  transformsIn f.records (Pointer.join "" path)

/-- Records stand under pointers. -/
def WellPlaced (f : Fragment) : Prop :=
  ∀ entry ∈ f.records.entries, Pointer.Rooted entry.1

instance (f : Fragment) : Decidable f.WellPlaced :=
  inferInstanceAs (Decidable (∀ entry ∈ f.records.entries, Pointer.Rooted entry.1))

lemma lookup_clearUnder (records : Table Metadata) (pre pointer : Pointer) :
    (clearUnder records pre).lookup pointer
      = if Pointer.hasPrefix pointer pre then none else records.lookup pointer := by
  have hlookup : (clearUnder records pre).lookup pointer
      = if !Pointer.hasPrefix pointer pre then records.lookup pointer else none :=
    Entries.lookup_filter (fun pointer => !Pointer.hasPrefix pointer pre) records.entries
  rw [hlookup]
  cases Pointer.hasPrefix pointer pre <;> rfl

lemma nodup_adopted (pre : Pointer) (embedded : Table Metadata) :
    (((embedded.entries.filter fun entry => !entry.2.isEmpty).map fun entry =>
      (pre ++ entry.1, entry.2)).map Prod.fst).Nodup := by
  rw [List.map_map]
  refine List.pairwise_map.2 ((embedded.sorted.filter _).imp fun hlt heq => ?_)
  exact String.lt_irrefl _ ((String.append_right_inj _).1 heq ▸ hlt)

/-- Records that are not filled have nothing to give. -/
lemma bind_filter_isEmpty {α : Type} {get : Metadata → Option α}
    (hget : ∀ m : Metadata, m.isEmpty = true → get m = none) (record : Option Metadata) :
    (record.filter fun m => !m.isEmpty).bind get = record.bind get := by
  cases record with
  | none => rfl
  | some m =>
    cases hm : m.isEmpty with
    | false => simp [Option.filter, hm]
    | true => simp [Option.filter, hm, hget m hm]

lemma transforms_filter_isEmpty (record : Option Metadata) :
    (record.filter fun m => !m.isEmpty).bind Metadata.transforms
      = record.bind Metadata.transforms :=
  bind_filter_isEmpty (fun m hm => by simp_all [Metadata.isEmpty]) record

/-- The filled record at a pointer stands at the prolonged pointer in what adopts it. -/
lemma lookup_adopt (records embedded : Table Metadata) (pre pointer : Pointer) :
    (adopt records pre embedded).lookup (pre ++ pointer)
      = ((embedded.lookup pointer).filter fun m => !m.isEmpty).or
        (records.lookup (pre ++ pointer)) := by
  refine (Entries.lookup_enter (nodup_adopted pre embedded) _ _).trans (congrArg₂ _ ?_ rfl)
  rw [Entries.lookup_map _ (pre ++ ·) pointer fun entry _ h => (String.append_right_inj _).1 h]
  exact Entries.lookup_filter_value (fun m => !m.isEmpty) (Entries.nodup_of_sorted embedded.sorted)

/-- What a fragment carried at a pointer is carried at the prolonged pointer by the one that adopts
it. -/
lemma transformsIn_adopt {records embedded : Table Metadata} {pre pointer : Pointer}
    (hnone : transformsIn records (pre ++ pointer) = none) :
    transformsIn (adopt records pre embedded) (pre ++ pointer) = transformsIn embedded pointer := by
  rw [transformsIn, lookup_adopt, transformsIn, ← transforms_filter_isEmpty (embedded.lookup pointer)]
  cases (embedded.lookup pointer).filter fun m => !m.isEmpty with
  | none => exact hnone
  | some m => rfl

/-- Elsewhere nothing changes. -/
lemma lookup_adopt_of_not {records embedded : Table Metadata} {pre pointer : Pointer}
    (h : ∀ entry ∈ embedded.entries, pre ++ entry.1 ≠ pointer) :
    (adopt records pre embedded).lookup pointer = records.lookup pointer := by
  have hnone : Entries.lookup pointer ((embedded.entries.filter fun entry => !entry.2.isEmpty).map
      fun entry => (pre ++ entry.1, entry.2)) = none := by
    refine Entries.lookup_eq_none_of_forall fun entry hentry => ?_
    obtain ⟨original, horiginal, rfl⟩ := List.mem_map.1 hentry
    exact h original (List.mem_filter.1 horiginal).1
  refine (Entries.lookup_enter (nodup_adopted pre embedded) _ _).trans ?_
  rw [hnone, Option.none_or]
  rfl

/-! ## Adopting several fragments -/

/-- The records after fragments were adopted under tokens beneath a pointer. -/
def adoptAll (base : Pointer) (records : Table Metadata) (parts : List (String × Fragment)) :
    Table Metadata :=
  parts.foldl (fun records part => adopt records (Pointer.child base part.1) part.2.records) records

lemma child_join (path : List String) (token : String) :
    Pointer.child (Pointer.join "" path) token = Pointer.join "" (path ++ [token]) :=
  (Pointer.join_append "" path [token]).symm

lemma not_adopted {path target : List String} {token : String} {part : Fragment}
    (hplaced : part.WellPlaced) (h : ¬path ++ [token] <+: target) :
    ∀ entry ∈ part.records.entries,
      Pointer.child (Pointer.join "" path) token ++ entry.1 ≠ Pointer.join "" target := by
  intro entry hentry heq
  refine h (Pointer.hasPrefix_join.1 ?_)
  rw [← heq, child_join]
  exact Pointer.hasPrefix_append (hplaced entry hentry) _

lemma lookup_adoptAll_of_ne {base pointer : Pointer} {parts : List (String × Fragment)}
    (h : ∀ part ∈ parts, ∀ entry ∈ part.2.records.entries,
      Pointer.child base part.1 ++ entry.1 ≠ pointer) (records : Table Metadata) :
    (adoptAll base records parts).lookup pointer = records.lookup pointer := by
  induction parts generalizing records with
  | nil => rfl
  | cons part parts ih =>
    obtain ⟨hpart, hparts⟩ := List.forall_mem_cons.1 h
    exact (ih hparts _).trans (lookup_adopt_of_not hpart)

lemma lookup_adoptAll_of_not {path target : List String} {parts : List (String × Fragment)}
    (hplaced : ∀ part ∈ parts, part.2.WellPlaced)
    (h : ∀ part ∈ parts, ¬path ++ [part.1] <+: target) (records : Table Metadata) :
    (adoptAll (Pointer.join "" path) records parts).lookup (Pointer.join "" target)
      = records.lookup (Pointer.join "" target) :=
  lookup_adoptAll_of_ne (fun part hpart => not_adopted (hplaced part hpart) (h part hpart)) records

/-- Where no part can have a record, nothing changes. -/
lemma lookup_adoptAll_apart {path : List String} {pointer : Pointer} {parts : List (String × Fragment)}
    (hplaced : ∀ part ∈ parts, part.2.WellPlaced)
    (h : ∀ token more, Pointer.Rooted more → Pointer.join "" (path ++ [token]) ++ more ≠ pointer)
    (records : Table Metadata) :
    (adoptAll (Pointer.join "" path) records parts).lookup pointer = records.lookup pointer := by
  refine lookup_adoptAll_of_ne (fun part hpart entry hentry => ?_) records
  rw [child_join]
  exact h part.1 entry.1 (hplaced part hpart entry hentry)

/-- What is found at a pointer is what was there, or what is adopted. -/
lemma lookup_adoptAll_congr {records others : Table Metadata} {pointer : Pointer}
    (h : records.lookup pointer = others.lookup pointer) (base : Pointer)
    (parts : List (String × Fragment)) :
    (adoptAll base records parts).lookup pointer = (adoptAll base others parts).lookup pointer := by
  induction parts generalizing records others with
  | nil => exact h
  | cons part parts ih =>
    refine ih ?_
    have hlookup : ∀ records : Table Metadata,
        (adopt records (Pointer.child base part.1) part.2.records).lookup pointer = _ := fun records =>
      Entries.lookup_enter (nodup_adopted (Pointer.child base part.1) part.2.records) records.entries pointer
    rw [hlookup, hlookup]
    exact congrArg _ h

/-- An entry was there, or is adopted. -/
lemma mem_adoptAll {base : Pointer} {parts : List (String × Fragment)} {records : Table Metadata}
    {entry : String × Metadata} (h : entry ∈ (adoptAll base records parts).entries) :
    (∃ part ∈ parts, ∃ original ∈ part.2.records.entries,
      entry.1 = Pointer.child base part.1 ++ original.1) ∨ entry ∈ records.entries := by
  induction parts generalizing records with
  | nil => exact Or.inr h
  | cons part parts ih =>
    rcases ih h with ⟨other, hother, hadopted⟩ | h
    · exact Or.inl ⟨other, List.mem_cons_of_mem _ hother, hadopted⟩
    · rcases Entries.mem_enter h with h | h
      · obtain ⟨original, horiginal, rfl⟩ := List.mem_map.1 h
        exact Or.inl ⟨part, List.mem_cons_self, original, (List.mem_filter.1 horiginal).1, rfl⟩
      · exact Or.inr h

lemma rooted_adoptAll {path : List String} {parts : List (String × Fragment)}
    (hplaced : ∀ part ∈ parts, part.2.WellPlaced) {records : Table Metadata}
    (h : ∀ entry ∈ records.entries, Pointer.Rooted entry.1) :
    ∀ entry ∈ (adoptAll (Pointer.join "" path) records parts).entries, Pointer.Rooted entry.1 := by
  intro entry hentry
  rcases mem_adoptAll hentry with ⟨part, hpart, original, horiginal, heq⟩ | hentry
  · rw [heq, child_join]
    exact (Pointer.rooted_join _).append (hplaced part hpart original horiginal)
  · exact h entry hentry

/-- The filled record that the parts under a token have at a pointer; the last one, if there are
several. -/
def adoptedBeneath? (parts : List (String × Fragment)) (token : String) (pointer : Pointer) :
    Option Metadata :=
  parts.reverse.findSome? fun part =>
    if part.1 = token then (part.2.recordAt? pointer).filter fun m => !m.isEmpty else none

lemma adoptedBeneath?_cons (part : String × Fragment) (parts : List (String × Fragment))
    (token : String) (pointer : Pointer) : adoptedBeneath? (part :: parts) token pointer
      = (adoptedBeneath? parts token pointer).or
        (if part.1 = token then (part.2.recordAt? pointer).filter fun m => !m.isEmpty else none) := by
  rw [adoptedBeneath?, List.reverse_cons, List.findSome?_append, List.findSome?_singleton]
  rfl

lemma adoptedBeneath?_eq_none {parts : List (String × Fragment)} {token : String}
    (h : ∀ part ∈ parts, part.1 ≠ token) (pointer : Pointer) :
    adoptedBeneath? parts token pointer = none :=
  List.findSome?_eq_none_iff.2 fun part hpart => if_neg (h part (List.mem_reverse.1 hpart))

lemma adoptedBeneath?_of_mem {parts : List (String × Fragment)} {part : String × Fragment}
    (hnodup : (parts.map Prod.fst).Nodup) (hpart : part ∈ parts) (pointer : Pointer) :
    adoptedBeneath? parts part.1 pointer = (part.2.recordAt? pointer).filter fun m => !m.isEmpty := by
  induction parts with
  | nil => exact absurd hpart List.not_mem_nil
  | cons first parts ih =>
    obtain ⟨hfirst, hnodup⟩ := List.nodup_cons.1 hnodup
    have hapart : ∀ other ∈ parts, other.1 ≠ first.1 := fun other hother heq =>
      hfirst (heq ▸ List.mem_map_of_mem hother)
    rw [adoptedBeneath?_cons]
    rcases List.mem_cons.1 hpart with rfl | hpart
    · rw [if_pos rfl, adoptedBeneath?_eq_none hapart, Option.none_or]
    · rw [ih hnodup hpart, if_neg (hapart part hpart).symm, Option.or_none]

/-- **Adoption.**  Beneath a token stand the filled records of the parts under that token. -/
lemma lookup_adoptAll_beneath (path : List String) {token : String} {pointer : Pointer}
    {parts : List (String × Fragment)} (hplaced : ∀ part ∈ parts, part.2.WellPlaced)
    (hpointer : pointer.Rooted) (records : Table Metadata) :
    (adoptAll (Pointer.join "" path) records parts).lookup (Pointer.join "" (path ++ [token]) ++ pointer)
      = (adoptedBeneath? parts token pointer).or
        (records.lookup (Pointer.join "" (path ++ [token]) ++ pointer)) := by
  induction parts generalizing records with
  | nil => rfl
  | cons part parts ih =>
    obtain ⟨hpart, hparts⟩ := List.forall_mem_cons.1 hplaced
    refine (ih hparts _).trans ?_
    rw [adoptedBeneath?_cons, Option.or_assoc]
    refine congrArg _ ?_
    by_cases htoken : part.1 = token
    · rw [← htoken, ← child_join, lookup_adopt, if_pos rfl]
      rfl
    · rw [if_neg htoken, Option.none_or]
      refine lookup_adopt_of_not fun entry hentry heq => htoken ?_
      rw [child_join] at heq
      exact Pointer.token_eq_of_append_eq (hpart entry hentry) hpointer heq

/-- The record at the end of a path, if it is filled. -/
def filledAt? (f : Fragment) (path : List String) : Option Metadata :=
  (f.recordAt? (Pointer.join "" path)).filter fun m => !m.isEmpty

/-- The filled record that the parts under a token have at the end of a path; the last one, if there
are several. -/
def adoptedAt? (parts : List (String × Fragment)) (token : String) (path : List String) :
    Option Metadata :=
  parts.reverse.findSome? fun part => if part.1 = token then part.2.filledAt? path else none

lemma lookup_adoptAll (path : List String) {rest : List String} {token : String}
    {parts : List (String × Fragment)}
    (hplaced : ∀ part ∈ parts, part.2.WellPlaced) (records : Table Metadata) :
    (adoptAll (Pointer.join "" path) records parts).lookup (Pointer.join "" (path ++ token :: rest))
      = (adoptedAt? parts token rest).or
        (records.lookup (Pointer.join "" (path ++ token :: rest))) := by
  have hjoin : Pointer.join "" (path ++ token :: rest)
      = Pointer.join "" (path ++ [token]) ++ Pointer.join "" rest := by
    rw [← Pointer.join_root_append, List.append_assoc]
    rfl
  rw [hjoin, lookup_adoptAll_beneath path hplaced (Pointer.rooted_join rest)]
  rfl

lemma adoptedAt?_of_mem {parts : List (String × Fragment)} {part : String × Fragment}
    (hnodup : (parts.map Prod.fst).Nodup) (hpart : part ∈ parts) (path : List String) :
    adoptedAt? parts part.1 path = part.2.filledAt? path :=
  adoptedBeneath?_of_mem hnodup hpart (Pointer.join "" path)

/-- What each of several fragments carries is carried beneath its token. -/
lemma transformsIn_adoptAll {path rest : List String} {parts : List (String × Fragment)}
    {part : String × Fragment} (hplaced : ∀ part ∈ parts, part.2.WellPlaced)
    (hnodup : (parts.map Prod.fst).Nodup) (hpart : part ∈ parts) {records : Table Metadata}
    (hnone : transformsIn records (Pointer.join "" (path ++ part.1 :: rest)) = none) :
    transformsIn (adoptAll (Pointer.join "" path) records parts)
      (Pointer.join "" (path ++ part.1 :: rest)) = part.2.transformsOn rest := by
  have hfilled : part.2.transformsOn rest = (part.2.filledAt? rest).bind Metadata.transforms :=
    (transforms_filter_isEmpty _).symm
  rw [transformsIn, lookup_adoptAll _ hplaced, adoptedAt?_of_mem hnodup hpart, hfilled]
  cases part.2.filledAt? rest with
  | none => exact hnone
  | some m => rfl

/-! ## Keywords -/

variable {f child : Fragment} {keyword : String} {path rest : List String}

lemma hasPrefix_keywordPointer : Pointer.hasPrefix (Pointer.join "" path) (keywordPointer keyword) = true
    ↔ path.head? = some keyword := by
  rw [keywordPointer, Pointer.hasPrefix_join]
  cases path with
  | nil => simp
  | cons token path => simp [List.cons_prefix_cons, eq_comm]

lemma lookup_clear (records : Table Metadata) (keyword : String) (path : List String) :
    (clearUnder records (keywordPointer keyword)).lookup (Pointer.join "" path)
      = if path.head? = some keyword then none else records.lookup (Pointer.join "" path) := by
  rw [lookup_clearUnder]
  exact if_congr hasPrefix_keywordPointer rfl rfl

lemma lookup_withKeyword (h : path.head? ≠ some keyword) (value : Json) :
    (f.withKeyword keyword value).recordAt? (Pointer.join "" path)
      = f.recordAt? (Pointer.join "" path) :=
  (lookup_clear _ _ _).trans (if_neg h)

lemma lookup_withoutKeyword (h : path.head? ≠ some keyword) :
    (f.withoutKeyword keyword).recordAt? (Pointer.join "" path)
      = f.recordAt? (Pointer.join "" path) :=
  (lookup_clear _ _ _).trans (if_neg h)

lemma lookup_takeRecords (from_ records : Table Metadata) (keyword : String) (pointer : Pointer) :
    (takeRecords from_ records keyword).lookup pointer
      = if Pointer.hasPrefix pointer (keywordPointer keyword) then from_.lookup pointer
        else records.lookup pointer := by
  have hnodup : ((from_.entries.filter fun entry =>
      Pointer.hasPrefix entry.1 (keywordPointer keyword)).map Prod.fst).Nodup :=
    Entries.nodup_of_sorted (from_.sorted.filter _)
  refine (Entries.lookup_enter hnodup _ pointer).trans ?_
  have hclear : Entries.lookup pointer (clearUnder records (keywordPointer keyword)).entries = _ :=
    lookup_clearUnder records _ pointer
  rw [Entries.lookup_filter (fun pointer => Pointer.hasPrefix pointer (keywordPointer keyword)), hclear]
  split
  · exact Option.or_none
  · exact Option.none_or

lemma lookup_foldl_takeRecords (from_ : Table Metadata) (keywords : List String)
    (records : Table Metadata) (pointer : Pointer) :
    (keywords.foldl (takeRecords from_) records).lookup pointer
      = if ∃ keyword ∈ keywords, Pointer.hasPrefix pointer (keywordPointer keyword) = true then
          from_.lookup pointer
        else records.lookup pointer := by
  induction keywords generalizing records with
  | nil => simp
  | cons keyword keywords ih =>
    rw [List.foldl_cons, ih, lookup_takeRecords]
    by_cases hbeneath : Pointer.hasPrefix pointer (keywordPointer keyword) = true
    · simp [hbeneath]
    · simp [hbeneath]

/-- **Merging** one fragment drops its own record, and keeps those beneath the keywords that are
left. -/
lemma lookup_merged (f : Fragment) (path : List String) :
    (merged [f]).recordAt? (Pointer.join "" path)
      = if ∃ keyword ∈ Entries.keys (Entries.trim f.keywords), path.head? = some keyword then
          f.recordAt? (Pointer.join "" path)
        else none := by
  refine (lookup_foldl_takeRecords f.records _ .empty (Pointer.join "" path)).trans ?_
  simp only [hasPrefix_keywordPointer]
  rfl

/-! ## Taking out -/

/-- The records at and beneath a pointer, under what follows it. -/
def cutOff (records : Table Metadata) (pre : Pointer) : Entries Metadata :=
  (records.entries.filter fun entry => Pointer.hasPrefix entry.1 pre).map fun entry =>
    (Pointer.dropPrefix entry.1 pre, entry.2)

lemma nodup_cutOff (records : Table Metadata) (pre : Pointer) :
    ((cutOff records pre).map Prod.fst).Nodup := by
  rw [cutOff, List.map_map]
  refine List.pairwise_map.2 ?_
  have hpair := List.Pairwise.and_mem.1 (records.sorted.filter fun entry =>
    Pointer.hasPrefix entry.1 pre)
  refine hpair.imp fun {a b} ⟨ha, hb, hlt⟩ heq => ?_
  have hdrop : Pointer.dropPrefix a.1 pre = Pointer.dropPrefix b.1 pre := heq
  have hab : a.1 = b.1 := by
    rw [Pointer.eq_append_dropPrefix (List.mem_filter.1 ha).2,
      Pointer.eq_append_dropPrefix (List.mem_filter.1 hb).2, hdrop]
  exact String.lt_irrefl _ (hab ▸ hlt)

lemma lookup_cutOff (records : Table Metadata) (pre pointer : Pointer)
    (h : Pointer.hasPrefix (pre ++ pointer) pre = true) :
    Entries.lookup pointer (cutOff records pre) = records.lookup (pre ++ pointer) := by
  have hmap := Entries.lookup_map
    (records.entries.filter fun entry => Pointer.hasPrefix entry.1 pre)
    (Pointer.dropPrefix · pre) (pre ++ pointer) fun entry hentry heq => by
      have hentry := Pointer.eq_append_dropPrefix (List.mem_filter.1 hentry).2
      rw [hentry, heq, Pointer.dropPrefix_append]
  rw [Pointer.dropPrefix_append] at hmap
  rw [cutOff, hmap, Entries.lookup_filter (fun key => Pointer.hasPrefix key pre), if_pos h]
  rfl

/-- The records at and beneath a place, wherever they stand. -/
lemma lookup_recordsBeneath (f : Fragment) (path : List String) (pointer : Pointer) :
    (f.recordsBeneath path).lookup pointer
      = if Pointer.hasPrefix (Pointer.join "" path ++ pointer) (Pointer.join "" path) then
          f.records.lookup (Pointer.join "" path ++ pointer)
        else none := by
  have hlookup : (f.recordsBeneath path).lookup pointer
      = Entries.lookup pointer (cutOff f.records (Pointer.join "" path)) :=
    (Entries.lookup_enter (nodup_cutOff f.records _) _ _).trans Option.or_none
  rw [hlookup]
  split
  · next hbeneath => exact lookup_cutOff _ _ _ hbeneath
  · next hapart =>
    refine Entries.lookup_eq_none_of_forall fun entry hentry heq => hapart ?_
    obtain ⟨original, horiginal, rfl⟩ := List.mem_map.1 hentry
    have hprefix := (List.mem_filter.1 horiginal).2
    rwa [← heq, ← Pointer.eq_append_dropPrefix hprefix]

/-- **Taking out.**  What a fragment carries at a place is carried by what is taken out there. -/
lemma lookup_at? (h : f.at? path = some child) (rest : List String) :
    child.recordAt? (Pointer.join "" rest) = f.recordAt? (Pointer.join "" (path ++ rest)) := by
  obtain ⟨keywords, -, rfl⟩ := Option.map_eq_some_iff.1 h
  rw [Pointer.join_root_append]
  exact (lookup_recordsBeneath f path _).trans
    (if_pos (Pointer.hasPrefix_append (Pointer.rooted_join rest) _))

lemma wellPlaced_at? (h : f.at? path = some child) (hpath : path ≠ []) : child.WellPlaced := by
  obtain ⟨keywords, -, rfl⟩ := Option.map_eq_some_iff.1 h
  intro entry hentry
  rcases Entries.mem_enter hentry with hentry | hentry
  · obtain ⟨original, horiginal, rfl⟩ := List.mem_map.1 hentry
    refine Pointer.rooted_dropPrefix (List.mem_filter.1 horiginal).2 fun hempty => hpath ?_
    exact Pointer.join_root_injective hempty
  · exact absurd hentry List.not_mem_nil

end Fragment

end SchemaAlgebra
