import SchemaAlgebra.Proofs.ByteOrder
import SchemaAlgebra.Proofs.Precedence

/-!
# Names of classes

A name of a class is looked up in three places: among the configured classes, where the last one
counts, among the built-in ones, and among those that the nodes of the schema carry, where the node of
the least pointer counts.  The relation `Registry.StandsFor` says so without a table.

* `Fragment.carriedClass?_eq_some_iff` — the class carried first is the one under the least pointer.
* **`Registry.get?_iff_standsFor`** — a registry gives for a name just what the name stands for, so that
  a schema adds classes and never replaces one, and a value is an instance of some of the names if a
  class that one of them stands for says so.
-/

namespace SchemaAlgebra

/-! ## The last of a list -/

namespace Class

/-- A class is the last one of its name in a list. -/
def IsLast (name : String) (classes : List Class) (cls : Class) : Prop :=
  ∃ before after, classes = before ++ cls :: after ∧ cls.name = name
    ∧ ∀ later ∈ after, later.name ≠ name

lemma last?_eq_some_iff {name : String} {classes : List Class} {cls : Class} :
    last? name classes = some cls ↔ IsLast name classes cls := by
  rw [last?, first?, List.find?_eq_some_iff_append]
  constructor
  · rintro ⟨hname, after, before, hreverse, hafter⟩
    refine ⟨before.reverse, after.reverse, ?_, by simpa using hname, fun later hlater => ?_⟩
    · simpa using congrArg List.reverse hreverse
    · simpa using hafter later (List.mem_reverse.1 hlater)
  · rintro ⟨before, after, rfl, hname, hafter⟩
    refine ⟨by simpa using hname, after.reverse, before.reverse, by simp, fun later hlater => ?_⟩
    simpa using hafter later (List.mem_reverse.1 hlater)

lemma last?_eq_none_iff {name : String} {classes : List Class} :
    last? name classes = none ↔ ∀ cls ∈ classes, cls.name ≠ name := by
  simp [last?, first?]

end Class

/-! ## The least pointer -/

namespace Fragment

variable {f : Fragment} {name : String} {cls : Class}

/-- The node at a pointer carries a class under a name. -/
def Carries (f : Fragment) (pointer : Pointer) (name : String) (cls : Class) : Prop :=
  ∃ record table, f.recordAt? pointer = some record ∧ record.constructors = some table
    ∧ table.lookup name = some cls

/-- A class is carried under a name at the pointer that is the least of those where one is, their bytes
being compared. -/
def CarriesFirst (f : Fragment) (name : String) (cls : Class) : Prop :=
  ∃ pointer, f.Carries pointer name cls
    ∧ ∀ other cls', f.Carries other name cls' → Text.bytes pointer ≤ Text.bytes other

lemma carries_iff {pointer : Pointer} : f.Carries pointer name cls ↔ ∃ record,
    (pointer, record) ∈ f.records.entries
      ∧ (record.constructors.bind fun table => table.lookup name) = some cls := by
  have hentry : ∀ record, f.recordAt? pointer = some record ↔ (pointer, record) ∈ f.records.entries :=
    fun record => Entries.lookup_eq_some_iff (Entries.nodup_of_sorted f.records.sorted)
  simp only [Carries, hentry, Option.bind_eq_some_iff, exists_and_left]

lemma Carries.unique {pointer : Pointer} {other : Class} (h : f.Carries pointer name cls)
    (h' : f.Carries pointer name other) : cls = other := by
  obtain ⟨record, table, hrecord, htable, hlookup⟩ := h
  obtain ⟨record', table', hrecord', htable', hlookup'⟩ := h'
  obtain rfl := Option.some.inj (hrecord.symm.trans hrecord')
  obtain rfl := Option.some.inj (htable.symm.trans htable')
  exact Option.some.inj (hlookup.symm.trans hlookup')

lemma carriedClass?_eq_none_iff :
    f.carriedClass? name = none ↔ ∀ pointer cls, ¬ f.Carries pointer name cls := by
  constructor
  · intro h pointer cls hcarries
    obtain ⟨record, hmem, hrecord⟩ := carries_iff.1 hcarries
    have hnone := List.findSome?_eq_none_iff.1 h _ hmem
    exact absurd (hnone.symm.trans hrecord) (by simp)
  · intro h
    refine List.findSome?_eq_none_iff.2 fun entry hmem => ?_
    exact Option.eq_none_iff_forall_ne_some.2 fun cls hrecord =>
      h entry.1 cls (carries_iff.2 ⟨entry.2, hmem, hrecord⟩)

/-- **The class carried first** is the one under the least pointer. -/
lemma carriedClass?_eq_some_iff : f.carriedClass? name = some cls ↔ f.CarriesFirst name cls := by
  -- the records are sorted by their pointers, so the first of them that carries a class is the least
  have hfirst : ∀ {cls}, f.carriedClass? name = some cls → f.CarriesFirst name cls := by
    intro cls h
    obtain ⟨before, ⟨pointer, record⟩, after, hentries, hrecord, hbefore⟩ :=
      List.findSome?_eq_some_iff.1 h
    refine ⟨pointer, carries_iff.2 ⟨record, by simp [hentries], hrecord⟩, fun other cls' hother => ?_⟩
    obtain ⟨record', hmem, hrecord'⟩ := carries_iff.1 hother
    have hsorted := f.records.sorted
    rw [hentries] at hmem hsorted
    rcases List.mem_append.1 hmem with hmem | hmem
    · exact absurd ((hbefore _ hmem).symm.trans hrecord') (by simp)
    · rcases List.mem_cons.1 hmem with heq | hmem
      · obtain ⟨rfl, -⟩ := Prod.mk.injEq .. ▸ heq
        exact List.le_refl _
      · have hlt := (List.pairwise_cons.1 (List.pairwise_append.1 hsorted).2.1).1 _ hmem
        exact List.le_of_lt (Text.bytes_lt_bytes_iff.2 hlt)
  refine ⟨hfirst, fun ⟨pointer, hcarries, hleast⟩ => ?_⟩
  cases h : f.carriedClass? name with
  | none => exact absurd hcarries (carriedClass?_eq_none_iff.1 h pointer cls)
  | some found =>
    obtain ⟨pointer', hcarries', hleast'⟩ := hfirst h
    obtain rfl : pointer = pointer' := String.le_antisymm
      (Text.bytes_le_bytes_iff.1 (hleast _ _ hcarries'))
      (Text.bytes_le_bytes_iff.1 (hleast' _ _ hcarries))
    rw [Carries.unique hcarries hcarries']

end Fragment

/-! ## Registries -/

namespace Registry

/-- **What a name stands for** in a schema that is compiled with some options. -/
inductive StandsFor (options : Options) (f : Fragment) (name : String) : Class → Prop
  /-- The last configured class of that name, if there is one. -/
  | configured {cls : Class} (hlast : Class.IsLast name options.classes cls) :
      StandsFor options f name cls
  /-- Else the built-in class. -/
  | builtIn {cls : Class} (hfree : ∀ other ∈ options.classes, other.name ≠ name)
      (hbuiltIn : Class.builtins.lookup name = some cls) : StandsFor options f name cls
  /-- Else the class carried first. -/
  | carried {cls : Class} (hfree : ∀ other ∈ options.classes, other.name ≠ name)
      (hforeign : Class.builtins.lookup name = none) (hfirst : f.CarriesFirst name cls) :
      StandsFor options f name cls

lemma get?_eq_some_iff {options : Options} {f : Fragment} {name : String} {cls : Class} :
    (build options f).get? name = some cls ↔ StandsFor options f name cls := by
  rw [get?_build]
  constructor
  · intro h
    rcases Option.or_eq_some_iff.1 h with hlast | ⟨hfree, h⟩
    · exact .configured (Class.last?_eq_some_iff.1 hlast)
    · have hfree := Class.last?_eq_none_iff.1 hfree
      rcases Option.or_eq_some_iff.1 h with hbuiltIn | ⟨hforeign, hfirst⟩
      · exact .builtIn hfree hbuiltIn
      · exact .carried hfree hforeign (Fragment.carriedClass?_eq_some_iff.1 hfirst)
  · intro h
    cases h with
    | configured hlast => rw [Class.last?_eq_some_iff.2 hlast, Option.some_or]
    | builtIn hfree hbuiltIn =>
      rw [Class.last?_eq_none_iff.2 hfree, hbuiltIn, Option.none_or, Option.some_or]
    | carried hfree hforeign hfirst =>
      rw [Class.last?_eq_none_iff.2 hfree, hforeign, Fragment.carriedClass?_eq_some_iff.2 hfirst,
        Option.none_or, Option.none_or]

lemma get?_eq_none_iff {options : Options} {f : Fragment} {name : String} :
    (build options f).get? name = none ↔ (∀ cls ∈ options.classes, cls.name ≠ name)
      ∧ Class.builtins.lookup name = none ∧ ∀ pointer cls, ¬ f.Carries pointer name cls := by
  rw [get?_build, Option.or_eq_none_iff, Option.or_eq_none_iff, Class.last?_eq_none_iff,
    Fragment.carriedClass?_eq_none_iff]

/-- What a schema without records knows, every schema knows alike. -/
lemma get?_of_get?_bare {options : Options} {f : Fragment} {name : String} {cls : Class}
    (h : (build options {}).get? name = some cls) : (build options f).get? name = some cls := by
  rw [get?_eq_some_iff] at h ⊢
  cases h with
  | configured hlast => exact .configured hlast
  | builtIn hfree hbuiltIn => exact .builtIn hfree hbuiltIn
  | carried _ _ hfirst =>
    obtain ⟨pointer, ⟨record, table, hrecord, -⟩, -⟩ := hfirst
    exact absurd hrecord (by simp [Fragment.recordAt?, Table.lookup, Table.empty])

lemma isInstanceOfAny_iff {registry : Registry} {names : List String} {value : Json} :
    registry.isInstanceOfAny names value = true
      ↔ ∃ name ∈ names, ∃ cls, registry.get? name = some cls ∧ cls.isInstance value = true := by
  simp only [isInstanceOfAny, List.any_eq_true, List.mem_filterMap]
  constructor
  · rintro ⟨cls, ⟨name, hname, hget⟩, hinstance⟩
    exact ⟨name, hname, cls, hget, hinstance⟩
  · rintro ⟨name, hname, cls, hget, hinstance⟩
    exact ⟨cls, ⟨name, hname, hget⟩, hinstance⟩

/-- **Names of classes.**  A registry gives for a name the class that it stands for, and none if it
stands for none: no configured class has that name, no built-in one, and no node carries one.  What is
known without the schema is the same with it, and a value is an instance of one of some names exactly
if a class that one of them stands for has it as an instance. -/
theorem get?_iff_standsFor (options : Options) (f : Fragment) :
    (∀ name cls, (build options f).get? name = some cls ↔ StandsFor options f name cls)
      ∧ (∀ name, (build options f).get? name = none ↔ (∀ cls ∈ options.classes, cls.name ≠ name)
        ∧ Class.builtins.lookup name = none ∧ ∀ pointer cls, ¬ f.Carries pointer name cls)
      ∧ (∀ name cls, (build options {}).get? name = some cls →
        (build options f).get? name = some cls)
      ∧ ∀ names value, (build options f).isInstanceOfAny names value = true
        ↔ ∃ name ∈ names, ∃ cls, StandsFor options f name cls ∧ cls.isInstance value = true := by
  refine ⟨fun _ _ => get?_eq_some_iff, fun _ => get?_eq_none_iff, fun _ _ => get?_of_get?_bare,
    fun names value => ?_⟩
  simp only [isInstanceOfAny_iff, get?_eq_some_iff]

/-- A union of which both members carry a class called `X`, the second without the instances that it
has in the first, and the second also one called `String` of which every value is an instance. -/
def unionOfCarriers : Fragment :=
  { keywords := [("anyOf", .array [.object [], .object []])]
    records := .ofPairs [
      ("/anyOf/0", { constructors := some (Class.table [Fragment.classOfAll]) }),
      ("/anyOf/1", { constructors := some (Class.table
        [Fragment.classOfNone, { Fragment.classOfAll with name := "String" }]) })] }

/-- The name `X` stands for the class of the first member, and `String` for the built-in class. -/
theorem unionOfCarriers_names :
    (build {} {}).get? "String" = some Class.string
      ∧ (build {} unionOfCarriers).get? "String" = some Class.string
      ∧ (build {} unionOfCarriers).get? "X" = some Fragment.classOfAll
      ∧ (build {} unionOfCarriers).isInstanceOfAny ["Y", "X"] .null = true := by
  obtain ⟨hget, -, hkept, hany⟩ := get?_iff_standsFor {} unionOfCarriers
  have hbare : (build {} {}).get? "String" = some Class.string := rfl
  have hfirst : unionOfCarriers.CarriesFirst "X" Fragment.classOfAll :=
    Fragment.carriedClass?_eq_some_iff.1 rfl
  have hstands : StandsFor {} unionOfCarriers "X" Fragment.classOfAll :=
    .carried (fun _ hmem => absurd hmem List.not_mem_nil) rfl hfirst
  exact ⟨hbare, hkept "String" _ hbare, (hget "X" _).2 hstands,
    (hany _ _).2 ⟨"X", by decide, _, hstands, rfl⟩⟩

end Registry

end SchemaAlgebra
