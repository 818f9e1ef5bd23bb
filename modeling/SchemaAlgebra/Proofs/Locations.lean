import SchemaAlgebra.Reference
import SchemaAlgebra.Proofs.Tokens

/-!
# Locations in a document

A location keeps the way to its value from the root of the document.  `Document.resolve?_sound` says
that the way leads there: for the schemas that a document lists, since their ways are put together on
the way down (`Site.MetIn.liesIn`), and for what a reference names, since a pointer is
followed step by step.

Objects have to be well formed here: of two members with one key, a way leads to the first.
-/

namespace SchemaAlgebra

/-! ## Well-formed values -/

lemma Entries.lookup_of_mem {α : Type} {key : String} {value : α} {entries : Entries α}
    (hsorted : entries.Sorted) (h : (key, value) ∈ entries) :
    Entries.lookup key entries = some value := by
  induction entries with
  | nil => exact absurd h List.not_mem_nil
  | cons entry rest ih =>
    obtain ⟨k, v⟩ := entry
    obtain ⟨hfirst, hrest⟩ := List.pairwise_cons.1 hsorted
    rcases List.mem_cons.1 h with h | h
    · obtain ⟨rfl, rfl⟩ := Prod.mk.inj h
      exact Entries.lookup_cons_self key value rest
    · have hne : k ≠ key := fun hk => String.lt_irrefl key (hk ▸ hfirst _ h)
      rw [Entries.lookup_cons_of_ne hne]
      exact ih hrest h

namespace Json

mutual

/-- Decides whether a value is well formed. -/
def decideWellFormed : (value : Json) → Decidable value.WellFormed
  | .array items => decideAllWellFormed items
  | .object members =>
    have := decideMembersWellFormed members
    inferInstanceAs (Decidable (members.Pairwise (fun a b => a.1 < b.1) ∧ MembersWellFormed members))
  | .null | .bool _ | .number _ | .string _ => isTrue trivial

/-- Decides it of every item. -/
def decideAllWellFormed : (items : List Json) → Decidable (AllWellFormed items)
  | [] => isTrue trivial
  | item :: rest =>
    have := decideWellFormed item
    have := decideAllWellFormed rest
    inferInstanceAs (Decidable (item.WellFormed ∧ AllWellFormed rest))

/-- Decides it of every member. -/
def decideMembersWellFormed : (members : List (String × Json)) → Decidable (MembersWellFormed members)
  | [] => isTrue trivial
  | (_, value) :: rest =>
    have := decideWellFormed value
    have := decideMembersWellFormed rest
    inferInstanceAs (Decidable (value.WellFormed ∧ MembersWellFormed rest))

end

instance : DecidablePred WellFormed := decideWellFormed

lemma membersWellFormed_iff {members : Entries Json} :
    MembersWellFormed members ↔ ∀ member ∈ members, member.2.WellFormed := by
  induction members with
  | nil => simp [MembersWellFormed]
  | cons head rest ih => rw [MembersWellFormed, ih, List.forall_mem_cons]

lemma allWellFormed_iff {items : List Json} :
    AllWellFormed items ↔ ∀ item ∈ items, item.WellFormed := by
  induction items with
  | nil => simp [AllWellFormed]
  | cons item rest ih => rw [AllWellFormed, ih, List.forall_mem_cons]

lemma wellFormed_of_mem_members {member : String × Json} {members : Entries Json}
    (h : MembersWellFormed members) (hmember : member ∈ members) : member.2.WellFormed :=
  membersWellFormed_iff.1 h member hmember

lemma wellFormed_of_mem_items {item : Json} {items : List Json} (h : AllWellFormed items)
    (hitem : item ∈ items) : item.WellFormed :=
  allWellFormed_iff.1 h item hitem

lemma wellFormed_insert {keywords : Entries Json} {keyword : String} {value : Json}
    (h : (Json.object keywords).WellFormed) (hvalue : value.WellFormed) :
    (Json.object (Entries.insert keyword value keywords)).WellFormed := by
  refine ⟨h.1.insert keyword value, membersWellFormed_iff.2 fun member hmember => ?_⟩
  rcases Entries.mem_insert hmember with rfl | hmember
  · exact hvalue
  · exact membersWellFormed_iff.1 h.2 member hmember

lemma walk?_object {members : Entries Json} {key : String} {value : Json} {path : List String}
    (h : Entries.lookup key members = some value) :
    (Json.object members).walk? (key :: path) = value.walk? path := by
  rw [walk?_cons]
  simp only [step?, h, Option.bind_some]

lemma walk?_array {items : List Json} {index : ℕ} {value : Json} {path : List String}
    (h : items[index]? = some value) :
    (Json.array items).walk? (Pointer.indexToken index :: path) = value.walk? path := by
  rw [walk?_cons]
  simp only [step?, Pointer.strictIndex?_eq_some.2 rfl, Option.bind_eq_bind, Option.bind_some, h]

lemma wellFormed_of_step? {index? : String → Option ℕ} {value below : Json} {token : String}
    (hwf : value.WellFormed) (h : step? index? value token = some below) : below.WellFormed := by
  cases value with
  | object members => exact wellFormed_of_mem_members hwf.2 (Entries.mem_of_lookup h)
  | array items =>
    obtain ⟨index, -, hitem⟩ := Option.bind_eq_some_iff.1 h
    exact wellFormed_of_mem_items hwf (List.mem_of_getElem? hitem)
  | _ => simp [step?] at h

lemma wellFormed_of_walk? {value below : Json} {path : List String} (hwf : value.WellFormed)
    (h : value.walk? path = some below) : below.WellFormed := by
  induction path generalizing value with
  | nil => exact Option.some.inj h ▸ hwf
  | cons token path ih =>
    rw [walk?_cons] at h
    obtain ⟨next, hnext, hrest⟩ := Option.bind_eq_some_iff.1 h
    exact ih (wellFormed_of_step? hwf hnext) hrest

end Json

/-! ## Sites -/

namespace Shape

/-- An object of the shape may be a schema. -/
def takesSchema : Shape → Bool
  | .schema | .schemaOrFlag | .schemaOrSchemas | .schemaOrNames _ => true
  | _ => false

/-- An array of the shape has schemas as items. -/
def takesList : Shape → Bool
  | .schemas | .schemaOrSchemas => true
  | _ => false

/-- The shape that the members of an object of the shape have. -/
def member? : Shape → Option Shape
  | .map inner => some inner
  | .patternMap => some .schema
  | _ => none

end Shape

namespace Site

variable {scope : Scope} {site : Site}

/-- A site lies where its path leads from a value that `path` leads to. -/
def LiesIn (site : Site) (path : List String) (value : Json) : Prop :=
  ∃ rest, site.path = path ++ rest ∧ value.walk? rest = some (.object site.keywords)

lemma LiesIn.member {path : List String} {members : Entries Json} {key : String} {value : Json}
    (hsorted : members.Sorted) (hmember : (key, value) ∈ members)
    (h : site.LiesIn (path ++ [key]) value) : site.LiesIn path (.object members) := by
  obtain ⟨rest, hpath, hwalk⟩ := h
  refine ⟨key :: rest, by rw [hpath, List.append_assoc]; rfl, ?_⟩
  rw [Json.walk?_object (Entries.lookup_of_mem hsorted hmember), hwalk]

lemma LiesIn.item {path : List String} {items : List Json} {index : ℕ} {value : Json}
    (hitem : items[index]? = some value)
    (h : site.LiesIn (path ++ [Pointer.indexToken index]) value) :
    site.LiesIn path (.array items) := by
  obtain ⟨rest, hpath, hwalk⟩ := h
  refine ⟨Pointer.indexToken index :: rest, by rw [hpath, List.append_assoc]; rfl, ?_⟩
  rw [Json.walk?_array hitem, hwalk]

/-- A site is met on the way down an argument of a shape, to which `path` leads, in a scope. -/
inductive MetIn (site : Site) : Scope → List String → Shape → Json → Prop
  | self {shape} : shape.takesSchema = true →
      MetIn site site.outer site.path shape (.object site.keywords)
  | keyword {scope path shape keywords key inner value} : shape.takesSchema = true →
      (key, value) ∈ keywords → (scope.enter keywords).draft.shape? key = some inner →
      MetIn site (scope.enter keywords) (path ++ [key]) inner value →
      MetIn site scope path shape (.object keywords)
  | member {scope path shape members key inner value} : shape.member? = some inner →
      (key, value) ∈ members → MetIn site scope (path ++ [key]) inner value →
      MetIn site scope path shape (.object members)
  | item {scope path shape items index value} : shape.takesList = true → items[index]? = some value →
      MetIn site scope (path ++ [Pointer.indexToken index]) .schema value →
      MetIn site scope path shape (.array items)

mutual

/-- **The schemas in an argument** are met on the way down. -/
theorem metIn_of_mem_ofArgument (scope : Scope) (path : List String) : ∀ (shape : Shape) (value : Json),
    ∀ site ∈ ofArgument scope path shape value, site.MetIn scope path shape value
  | shape, .object members, site, h => by
      have hschema : shape.takesSchema = true → site ∈ (⟨scope, path, members⟩ : Site)
          :: ofKeywords (scope.enter members) path members →
          site.MetIn scope path shape (.object members) := by
        intro hshape h
        rcases List.mem_cons.1 h with rfl | h
        · exact .self hshape
        · obtain ⟨key, value, inner, hmember, hinner, hmet⟩ :=
            exists_of_mem_ofKeywords (scope.enter members) path members site h
          exact .keyword hshape hmember hinner hmet
      have hmembers : ∀ inner, shape.member? = some inner → site ∈ ofMembers scope path inner members →
          site.MetIn scope path shape (.object members) := by
        intro inner hshape h
        obtain ⟨key, value, hmember, hmet⟩ := exists_of_mem_ofMembers scope path inner members site h
        exact .member hshape hmember hmet
      cases shape with
      | schema | schemaOrFlag | schemaOrSchemas | schemaOrNames => exact hschema rfl h
      | map inner => exact hmembers inner rfl h
      | patternMap => exact hmembers .schema rfl h
      | _ => simp [ofArgument] at h
  | shape, .array items, site, h => by
      have hitems : shape.takesList = true → site ∈ ofItems scope path 0 items →
          site.MetIn scope path shape (.array items) := by
        intro hshape h
        obtain ⟨index, value, hitem, hmet⟩ := exists_of_mem_ofItems scope path 0 items site h
        rw [Nat.zero_add] at hmet
        exact .item hshape hitem hmet
      cases shape with
      | schemas | schemaOrSchemas => exact hitems rfl h
      | _ => simp [ofArgument] at h
  | shape, .null, site, h => by cases shape <;> simp [ofArgument] at h
  | shape, .bool _, site, h => by cases shape <;> simp [ofArgument] at h
  | shape, .number _, site, h => by cases shape <;> simp [ofArgument] at h
  | shape, .string _, site, h => by cases shape <;> simp [ofArgument] at h

theorem exists_of_mem_ofKeywords (scope : Scope) (path : List String) :
    ∀ keywords : List (String × Json), ∀ site ∈ ofKeywords scope path keywords,
      ∃ key value inner, (key, value) ∈ keywords ∧ scope.draft.shape? key = some inner
        ∧ site.MetIn scope (path ++ [key]) inner value
  | [], site, h => by simp [ofKeywords] at h
  | (keyword, argument) :: rest, site, h => by
      rcases List.mem_append.1 h with h | h
      · cases hshape : scope.draft.shape? keyword with
        | none => simp [hshape] at h
        | some shape =>
          rw [hshape] at h
          exact ⟨keyword, argument, shape, List.mem_cons_self, hshape,
            metIn_of_mem_ofArgument scope (path ++ [keyword]) shape argument site h⟩
      · obtain ⟨key, value, inner, hmember, hmet⟩ := exists_of_mem_ofKeywords scope path rest site h
        exact ⟨key, value, inner, List.mem_cons_of_mem _ hmember, hmet⟩

theorem exists_of_mem_ofItems (scope : Scope) (path : List String) (first : ℕ) :
    ∀ items : List Json, ∀ site ∈ ofItems scope path first items,
      ∃ index value, items[index]? = some value
        ∧ site.MetIn scope (path ++ [Pointer.indexToken (first + index)]) .schema value
  | [], site, h => by simp [ofItems] at h
  | item :: rest, site, h => by
      rcases List.mem_append.1 h with h | h
      · exact ⟨0, item, rfl, metIn_of_mem_ofArgument scope _ .schema item site h⟩
      · obtain ⟨index, value, hitem, hmet⟩ := exists_of_mem_ofItems scope path (first + 1) rest site h
        rw [Nat.add_right_comm, Nat.add_assoc] at hmet
        exact ⟨index + 1, value, by simpa using hitem, hmet⟩

theorem exists_of_mem_ofMembers (scope : Scope) (path : List String) (shape : Shape) :
    ∀ members : List (String × Json), ∀ site ∈ ofMembers scope path shape members,
      ∃ key value, (key, value) ∈ members ∧ site.MetIn scope (path ++ [key]) shape value
  | [], site, h => by simp [ofMembers] at h
  | (key, value) :: rest, site, h => by
      rcases List.mem_append.1 h with h | h
      · exact ⟨key, value, List.mem_cons_self,
          metIn_of_mem_ofArgument scope (path ++ [key]) shape value site h⟩
      · obtain ⟨k, v, hmember, hmet⟩ := exists_of_mem_ofMembers scope path shape rest site h
        exact ⟨k, v, List.mem_cons_of_mem _ hmember, hmet⟩

end

lemma MetIn.liesIn {path : List String} {shape : Shape} {value : Json}
    (h : site.MetIn scope path shape value) (hwf : value.WellFormed) : site.LiesIn path value := by
  induction h with
  | self => exact ⟨[], by simp, rfl⟩
  | keyword _ hmember _ _ ih | member _ hmember _ ih =>
    exact (ih (Json.wellFormed_of_mem_members hwf.2 hmember)).member hwf.1 hmember
  | item _ hitem _ ih =>
    exact (ih (Json.wellFormed_of_mem_items hwf (List.mem_of_getElem? hitem))).item hitem

end Site

/-! ## Documents -/

/-- The way of a location leads to its value. -/
def Location.Sound (root : Json) (location : Location) : Prop :=
  root.walk? location.path = some location.value

lemma Location.Sound.step? {root : Json} {location next : Location} {token : String}
    (h : location.Sound root) (hstep : location.step? token = some next) : next.Sound root := by
  have hdown : ∀ {key : String} {path : List String} {value : Json},
      location.value.walk? [key] = some value → path = location.path ++ [key] →
      root.walk? path = some value := by
    rintro key _ value hvalue rfl
    rw [Json.walk?_append, show root.walk? location.path = some location.value from h]
    exact hvalue
  unfold Location.step? at hstep
  split at hstep
  · rename_i members hvalue
    obtain ⟨value, hmember, rfl⟩ := Option.map_eq_some_iff.1 hstep
    exact hdown (by rw [hvalue, Json.walk?_object hmember, Json.walk?_nil]) rfl
  · rename_i items hvalue
    obtain ⟨index, -, hstep⟩ := Option.bind_eq_some_iff.1 hstep
    obtain ⟨value, hitem, h⟩ := Option.bind_eq_some_iff.1 hstep
    obtain rfl := Option.some.inj h
    exact hdown (by rw [hvalue, Json.walk?_array hitem, Json.walk?_nil]) rfl
  · simp at hstep

/-- A step down enters the scope inside. -/
lemma Location.scope_of_step? {location next : Location} {token : String}
    (h : location.step? token = some next) : next.scope = location.inner := by
  unfold Location.step? at h
  split at h
  · obtain ⟨_, -, rfl⟩ := Option.map_eq_some_iff.1 h
    rfl
  · obtain ⟨_, -, h⟩ := Option.bind_eq_some_iff.1 h
    obtain ⟨_, -, h⟩ := Option.bind_eq_some_iff.1 h
    exact Option.some.inj h ▸ rfl
  · simp at h

/-- What every step down keeps holds at the end of a way. -/
lemma Location.of_foldlM {P : Location → Prop}
    (hstep : ∀ location token next, P location → location.step? token = some next → P next)
    {location target : Location} {tokens : List String} (h : P location)
    (htarget : tokens.foldlM Location.step? location = some target) : P target := by
  induction tokens generalizing location with
  | nil => exact Option.some.inj htarget ▸ h
  | cons token tokens ih =>
    obtain ⟨next, hnext, hrest⟩ := Option.bind_eq_some_iff.1 htarget
    exact ih (hstep location token next h hnext) hrest

namespace Document

variable {document : Document}

section Resolution

variable {P : Location → Prop} (hroot : P document.rootLocation)
  (hsites : ∀ site ∈ document.sites, P site.location)

include hroot hsites

lemma of_resource? {uri : Uri} {location : Location} (h : document.resource? uri = some location) :
    P location := by
  unfold resource? at h
  split at h
  · exact Option.some.inj h ▸ hroot
  · obtain ⟨site, hsite, rfl⟩ := Option.map_eq_some_iff.1 h
    exact hsites site (List.mem_of_find?_eq_some hsite)

/-- **What a reference names** has in common with the document and its schemas what every step down
keeps. -/
lemma of_resolve? (hstep : ∀ location token next, P location → location.step? token = some next → P next)
    {scope : Scope} {reference : String} {target : Location}
    (h : document.resolve? scope reference = some target) : P target := by
  obtain ⟨uri, -, h⟩ := Option.bind_eq_some_iff.1 h
  dsimp only at h
  split at h
  · exact of_resource? hroot hsites h
  · exact of_resource? hroot hsites h
  · obtain ⟨location, hlocation, h⟩ := Option.bind_eq_some_iff.1 h
    obtain ⟨text, -, h⟩ := Option.bind_eq_some_iff.1 h
    obtain ⟨tokens, -, h⟩ := Option.bind_eq_some_iff.1 h
    exact Location.of_foldlM hstep (of_resource? hroot hsites hlocation) h
  · obtain ⟨name, -, h⟩ := Option.bind_eq_some_iff.1 h
    obtain ⟨site, hsite, rfl⟩ := Option.map_eq_some_iff.1 h
    exact hsites site (List.mem_of_find?_eq_some hsite)

end Resolution

/-- Each site of the document lies where its path says. -/
def Listed (document : Document) : Prop :=
  ∀ site ∈ document.sites, site.location.Sound document.root

lemma rootLocation_sound : document.rootLocation.Sound document.root := rfl

/-- The way of what a reference names leads there. -/
lemma resolve?_sound (hlisted : document.Listed) {scope : Scope} {reference : String}
    {target : Location} (h : document.resolve? scope reference = some target) :
    target.Sound document.root :=
  of_resolve? rootLocation_sound hlisted (fun _ _ _ hsound => hsound.step?) h

/-! ## Documents of values -/

/-- The members of a value that a document keeps: all but the dialect that the value announces. -/
def kept (value : Json) : Json :=
  match value with
  | .object keywords => .object (Entries.erase "$schema" keywords)
  | value => value

lemma root_ofJson (draft : Draft) (value : Json) : (ofJson draft value).root = kept value := by
  cases value <;> rfl

lemma lookup_erase_of_ne {α : Type} {key erased : String} (h : key ≠ erased) (entries : Entries α) :
    Entries.lookup key (Entries.erase erased entries) = Entries.lookup key entries := by
  induction entries with
  | nil => rfl
  | cons entry rest ih =>
    obtain ⟨k, v⟩ := entry
    by_cases hk : k = erased
    · subst hk
      rw [Entries.lookup_cons_of_ne (Ne.symm h), ← ih]
      simp [Entries.erase]
    · have hcons : Entries.erase erased ((k, v) :: rest) = (k, v) :: Entries.erase erased rest := by
        simp [Entries.erase, hk]
      simp only [hcons, Entries.lookup, ih]

lemma lookup_erase_self {α : Type} (erased : String) (entries : Entries α) :
    Entries.lookup erased (Entries.erase erased entries) = none := by
  induction entries with
  | nil => rfl
  | cons entry rest ih =>
    obtain ⟨k, v⟩ := entry
    by_cases hk : k = erased
    · simpa [Entries.erase, hk] using ih
    · have hcons : Entries.erase erased ((k, v) :: rest) = (k, v) :: Entries.erase erased rest := by
        simp [Entries.erase, hk]
      rw [hcons, Entries.lookup_cons_of_ne hk, ih]

lemma wellFormed_kept {value : Json} (h : value.WellFormed) : (kept value).WellFormed := by
  cases value with
  | object keywords =>
    refine ⟨h.1.filter _, ?_⟩
    have hmembers : ∀ members : Entries Json, Json.MembersWellFormed members →
        Json.MembersWellFormed (Entries.erase "$schema" members) := by
      intro members
      induction members with
      | nil => exact fun h => h
      | cons head rest ih =>
        intro h
        by_cases hkey : head.1 = "$schema"
        · simpa [Entries.erase, hkey] using ih h.2
        · simpa [Entries.erase, hkey, Json.MembersWellFormed] using And.intro h.1 (ih h.2)
    exact hmembers keywords h.2
  | _ => exact h

lemma membersPositions_le_of_sublist {few many : Entries Json} (h : few.Sublist many) :
    Json.membersPositions few ≤ Json.membersPositions many := by
  induction h with
  | slnil => exact Nat.le_refl _
  | cons _ _ ih => exact Nat.le_trans ih (Nat.le_add_left _ _)
  | cons_cons _ _ ih => exact Nat.add_le_add_left ih _

lemma membersDepth_le_of_sublist {few many : Entries Json} (h : few.Sublist many) :
    Json.membersDepth few ≤ Json.membersDepth many := by
  induction h with
  | slnil => exact Nat.le_refl _
  | cons _ _ ih => exact Nat.le_trans ih (Nat.le_max_right _ _)
  | cons_cons _ _ ih =>
    rw [Json.membersDepth, Json.membersDepth]
    omega

lemma positions_kept_le (value : Json) : (kept value).positions ≤ value.positions := by
  cases value with
  | object keywords => exact Nat.succ_le_succ (membersPositions_le_of_sublist List.filter_sublist)
  | _ => exact Nat.le_refl _

lemma depth_kept_le (value : Json) : (kept value).depth ≤ value.depth := by
  cases value with
  | object keywords => exact Nat.succ_le_succ (membersDepth_le_of_sublist List.filter_sublist)
  | _ => exact Nat.le_refl _

lemma listed_ofJson {value : Json} (draft : Draft) (h : value.WellFormed) :
    (ofJson draft value).Listed := by
  intro site hsite
  have hroot : (ofJson draft value).sites
      = Site.ofArgument ⟨draft, defaultBase⟩ [] .schema (kept value) := by
    cases value <;> rfl
  rw [hroot] at hsite
  obtain ⟨rest, hpath, hwalk⟩ :=
    (Site.metIn_of_mem_ofArgument _ _ .schema _ site hsite).liesIn (wellFormed_kept h)
  rw [Location.Sound, root_ofJson]
  rw [List.nil_append] at hpath
  simpa only [Site.location, hpath] using hwalk

/-- A way from the root of the document other than the empty one is one of the value. -/
lemma walk?_of_kept {value below : Json} {token : String} {path : List String}
    (h : (kept value).walk? (token :: path) = some below) :
    value.walk? (token :: path) = some below := by
  cases value with
  | object keywords =>
    rw [Json.walk?_cons] at h ⊢
    obtain ⟨next, hnext, hrest⟩ := Option.bind_eq_some_iff.1 h
    have hlookup : Entries.lookup token (Entries.erase "$schema" keywords) = some next := hnext
    have hne : token ≠ "$schema" := by
      rintro rfl
      rw [lookup_erase_self] at hlookup
      exact absurd hlookup (by simp)
    rw [lookup_erase_of_ne hne] at hlookup
    exact Option.bind_eq_some_iff.2 ⟨next, hlookup, hrest⟩
  | _ => exact h

/-- Keywords that differ in the announced dialect at most. -/
def SameButDialect (keywords others : Entries Json) : Prop :=
  ∀ keyword, keyword ≠ "$schema" → Entries.lookup keyword keywords = Entries.lookup keyword others

lemma SameButDialect.contains_eq {keywords others : Entries Json}
    (h : SameButDialect keywords others) {keyword : String} (hkeyword : keyword ≠ "$schema") :
    Entries.contains keyword keywords = Entries.contains keyword others := by
  rw [Entries.contains_eq_isSome, Entries.contains_eq_isSome, h keyword hkeyword]

/-- A schema that the document keeps is one of the value, but for the dialect. -/
lemma exists_walk?_of_kept {value : Json} {path : List String} {keywords : Entries Json}
    (h : (kept value).walk? path = some (.object keywords)) :
    ∃ others, value.walk? path = some (.object others) ∧ SameButDialect keywords others := by
  cases path with
  | nil =>
    have hroot : kept value = .object keywords := Option.some.inj h
    cases value with
    | object others =>
      have herase : Entries.erase "$schema" others = keywords := Json.object.inj hroot
      refine ⟨others, rfl, fun keyword hkeyword => ?_⟩
      rw [← herase, lookup_erase_of_ne hkeyword]
    | _ => simp [kept] at hroot
  | cons token path => exact ⟨keywords, walk?_of_kept h, fun _ _ => rfl⟩

/-- Where the value has a schema, so has the document, if it has anything. -/
lemma exists_kept_of_walk? {value below : Json} {path : List String} {others : Entries Json}
    (hkept : (kept value).walk? path = some below) (h : value.walk? path = some (.object others)) :
    ∃ keywords, below = .object keywords ∧ SameButDialect keywords others := by
  cases path with
  | nil =>
    obtain rfl : kept value = below := Option.some.inj hkept
    obtain rfl : value = .object others := Option.some.inj h
    exact ⟨_, rfl, fun keyword hkeyword => lookup_erase_of_ne hkeyword others⟩
  | cons token path =>
    rw [walk?_of_kept hkept] at h
    exact ⟨others, Option.some.inj h, fun _ _ => rfl⟩

end Document

end SchemaAlgebra
