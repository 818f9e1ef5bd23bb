import SchemaAlgebra.Proofs.Precedence
import SchemaAlgebra.Proofs.Stances
import SchemaAlgebra.Proofs.Views

/-!
# Views accept more

A partial view requires fewer names, in some of the objects of a schema, and is like it otherwise
(`Fragment.revises_view`).  So it accepts what the schema accepts (`Fragment.view_accepts`), if four things
hold.

* Its unions have objects as members (`Fragment.KeepsMembers`), as a view drops any other member.
* Under each name it carries the class that the schema does.
* Where it counts against a value that a schema is satisfied, the view requires no fewer names.
* Matching against it ends.

None of them can be left out (`Fragment.views_may_refuse`).
-/

namespace SchemaAlgebra

/-! ## Schemas and what they require -/

lemma exists_eq_map_string {items : List Json} (h : ∀ item ∈ items, item.string?.isSome = true) :
    ∃ names : List String, items = names.map .string := by
  induction items with
  | nil => exact ⟨[], rfl⟩
  | cons item items ih =>
    obtain ⟨hitem, hitems⟩ := List.forall_mem_cons.1 h
    obtain ⟨names, rfl⟩ := ih hitems
    cases item with
    | string name => exact ⟨name :: names, rfl⟩
    | _ => simp [Json.string?] at hitem

/-- A schema of any dialect requires names. -/
lemma requiresNames_of_isSchema {draft : Draft} {keywords : Entries Json}
    (h : draft.isSchema (.object keywords) = true) : RequiresNames keywords := by
  intro argument hargument
  obtain ⟨nonEmpty, hshape⟩ : ∃ nonEmpty, draft.shape? "required" = some (.names nonEmpty) := by
    cases draft <;> exact ⟨_, rfl⟩
  rw [Draft.isSchema, Draft.fits, Bool.and_eq_true] at h
  have hfits := Plan.fitKeywords_iff.1 h.2 _ (Entries.mem_of_lookup hargument) _ hshape
  cases argument with
  | array items =>
    simp only [Draft.fits, Shape.fitsPlain, Shape.areNames, Bool.and_eq_true, List.all_eq_true] at hfits
    obtain ⟨names, rfl⟩ := exists_eq_map_string hfits.1.1
    exact ⟨names, rfl⟩
  | _ => simp [Draft.fits, Shape.fitsPlain] at hfits

lemma isSchema_of_mem_union {draft : Draft} {keywords : Entries Json} {items : List Json} {item : Json}
    (h : draft.isSchema (.object keywords) = true)
    (hunion : Entries.lookup "anyOf" keywords = some (.array items)) (hitem : item ∈ items) :
    draft.isSchema item = true := by
  have hshape : draft.shape? "anyOf" = some .schemas := by
    cases draft <;> rfl
  rw [Draft.isSchema, Draft.fits, Bool.and_eq_true] at h
  have hfits := Plan.fitKeywords_iff.1 h.2 _ (Entries.mem_of_lookup hunion) _ hshape
  rw [Draft.fits, Bool.and_eq_true, Draft.fitItems_iff] at hfits
  exact hfits.2 item hitem

/-- An entry that is set anew stands where it stood. -/
lemma Entries.exists_replaced {α : Type} {key : String} {a : α} {entries : Entries α}
    (hsorted : entries.Sorted) (h : Entries.lookup key entries = some a) (b : α) :
    ∃ before after, entries = before ++ (key, a) :: after
      ∧ Entries.insert key b entries = before ++ (key, b) :: after := by
  induction entries with
  | nil => simp at h
  | cons entry rest ih =>
    obtain ⟨k, c⟩ := entry
    obtain ⟨hfirst, hrest⟩ := List.pairwise_cons.1 hsorted
    by_cases hk : k = key
    · subst hk
      rw [Entries.lookup_cons_self] at h
      obtain rfl := Option.some.inj h
      exact ⟨[], rest, rfl, by simp [Entries.insert]⟩
    · rw [Entries.lookup_cons_of_ne hk] at h
      obtain ⟨before, after, hold, hnew⟩ := ih hrest h
      have hlt : k < key := hfirst _ (Entries.mem_of_lookup h)
      refine ⟨(k, c) :: before, after, by rw [hold]; rfl, ?_⟩
      rw [List.cons_append, ← hnew]
      simp [Entries.insert, hlt]

/-- Some names are left out, and the others stay in order. -/
def LeavesOut (names fewer : List String) : Prop :=
  fewer.Sublist names

namespace Fragment

variable {f view : Fragment} {keep : List String} {draft : Draft}

/-- **No member is lost**: a view comes to unions whose members are objects alone. -/
inductive KeepsMembers : Fragment → Prop
  | object {f : Fragment} : f.isObject = true → KeepsMembers f
  | union {f : Fragment} {items : List Json} : f.get? "anyOf" = some (.array items) →
      (∀ item ∈ items, item.isObject = true) → (∀ member ∈ f.members "anyOf", KeepsMembers member) →
      KeepsMembers f

/-! ## Views of objects -/

lemma erase_withRequired (f : Fragment) (required : List Json) :
    Entries.erase "required" (f.withRequired required).keywords = Entries.erase "required" f.keywords := by
  cases required with
  | nil => exact Entries.erase_erase_self _ _
  | cons name names => exact Entries.erase_insert_self _ _ _

lemma requiredSeq_eq (h : RequiresNames f.keywords) :
    f.requiredSeq = (namesRequired f.keywords).map .string := by
  rw [requiredSeq, namesRequired, get?]
  cases hlookup : Entries.lookup "required" f.keywords with
  | none => rfl
  | some argument =>
    obtain ⟨names, rfl⟩ := h argument hlookup
    have hnames : (names.map Json.string).filterMap Json.string? = names := by
      rw [List.filterMap_map]
      exact List.filterMap_some
    simp only [Option.getD_some, Json.seq, Option.bind_some, Json.items?, hnames]

lemma requiresNames_withRequired (f : Fragment) (names : List String) :
    RequiresNames (f.withRequired (names.map .string)).keywords := by
  intro argument hargument
  cases names with
  | nil =>
    have hnone : Entries.lookup "required" (f.withRequired []).keywords = none :=
      Document.lookup_erase_self _ _
    rw [List.map_nil, hnone] at hargument
    cases hargument
  | cons name names =>
    have hsome : Entries.lookup "required" (f.withRequired ((name :: names).map .string)).keywords
        = some (.array ((name :: names).map .string)) := Entries.lookup_insert_self _ _ _
    rw [hsome] at hargument
    exact ⟨name :: names, (Option.some.inj hargument).symm⟩

lemma filter_isNameIn (names : List String) :
    (names.map Json.string).filter (isNameIn keep) = (names.filter keep.contains).map .string := by
  rw [List.filter_map]
  rfl

/-- The view of an object drops names. -/
lemma revises_withRequired (h : RequiresNames f.keywords) :
    Json.Revises LeavesOut f.json (f.withRequired (f.requiredSeq.filter (isNameIn keep))).json := by
  rw [requiredSeq_eq h, filter_isNameIn]
  have hnames := requiresNames_withRequired f ((namesRequired f.keywords).filter keep.contains)
  refine .required (erase_withRequired f _).symm h hnames ?_
  have hfewer := (requiredSeq_eq hnames).symm.trans (requiredSeq_withRequired f _)
  rw [List.map_injective_iff.2 (fun _ _ => Json.string.inj) hfewer]
  exact List.filter_sublist

/-! ## Well-formed views -/

lemma wellFormed_withRequired (hwf : f.json.WellFormed) {required : List Json}
    (h : ∀ item ∈ required, item.WellFormed) : (f.withRequired required).json.WellFormed := by
  cases required with
  | nil =>
    exact ⟨hwf.1.filter _, Json.membersWellFormed_iff.2 fun member hmember =>
      Json.wellFormed_of_mem_members hwf.2 (List.mem_filter.1 hmember).1⟩
  | cons name names => exact Json.wellFormed_insert hwf (Json.allWellFormed_iff.2 h)

lemma wellFormed_requiredSeq (hwf : f.json.WellFormed) : ∀ item ∈ f.requiredSeq, item.WellFormed := by
  intro item hitem
  rw [requiredSeq, get?] at hitem
  cases hlookup : Entries.lookup "required" f.keywords with
  | none => simp [hlookup, Json.seq] at hitem
  | some argument =>
    have hargument := Json.wellFormed_of_mem_members hwf.2 (Entries.mem_of_lookup hlookup)
    rw [hlookup, Option.getD_some] at hitem
    cases argument with
    | null => simp [Json.seq] at hitem
    | array items => exact Json.wellFormed_of_mem_items hargument hitem
    | _ => exact List.mem_singleton.1 hitem ▸ hargument

lemma wellFormed_member {member : Fragment} (hwf : f.json.WellFormed) (h : member ∈ f.members "anyOf") :
    member.json.WellFormed := by
  obtain ⟨index, schemas, -, hlookup, hitem⟩ := mem_members h
  have hschemas := Json.wellFormed_of_mem_members hwf.2 (Entries.mem_of_lookup hlookup)
  exact Json.wellFormed_of_mem_items hschemas (List.mem_of_getElem? hitem)

lemma wellFormed_view (hwf : f.json.WellFormed) (hview : f.partialView keep = .ok view) :
    view.json.WellFormed := by
  induction f using induction_on_members generalizing keep view with
  | step f ih =>
    obtain ⟨-, rfl⟩ | ⟨-, -, views, hviews, rfl⟩ := partialView_eq_ok_iff.1 hview
    · exact wellFormed_withRequired hwf fun item hitem =>
        wellFormed_requiredSeq hwf item (List.mem_filter.1 hitem).1
    · refine Json.wellFormed_insert hwf (Json.allWellFormed_iff.2 ?_)
      refine List.forall_mem_map.2 fun view hview => ?_
      obtain ⟨member, hmember, hview⟩ := (mapM_eq_ok hviews).2 view hview
      exact ih member hmember (wellFormed_member hwf hmember) hview

/-! ## Views of unions -/

/-- What holds of members and their views holds of a union and its view, item by item. -/
lemma forall₂_views {R : Json → Json → Prop} {items : List Json} {views : List Fragment}
    (hitems : f.get? "anyOf" = some (.array items)) (hobjects : ∀ item ∈ items, item.isObject = true)
    (hschema : draft.isSchema f.json = true) (hwf : f.json.WellFormed)
    (hviews : (f.members "anyOf").mapM (partialView · keep) = .ok views)
    (h : ∀ member ∈ f.members "anyOf", draft.isSchema member.json = true → member.json.WellFormed →
      ∀ view, member.partialView keep = .ok view → R member.json view.json) :
    List.Forall₂ R items (views.map json) := by
  have hmembers := json_members hitems fun item hitem =>
    Matcher.exists_object_of_isObject (hobjects item hitem)
  rw [← hmembers, List.forall₂_map_left_iff, List.forall₂_map_right_iff]
  refine ((List.forall₂_and_left _ _).2 ⟨fun _ hmember => hmember, mapM_forall₂ hviews⟩).imp ?_
  rintro member view ⟨hmember, hview⟩
  have hitem : member.json ∈ items := hmembers ▸ List.mem_map_of_mem hmember
  exact h member hmember (isSchema_of_mem_union hschema hitems hitem) (wellFormed_member hwf hmember)
    view hview

/-- **A view revises its schema**, if no member is lost. -/
lemma revises_view (hkeeps : f.KeepsMembers) (hschema : draft.isSchema f.json = true)
    (hwf : f.json.WellFormed) (hview : f.partialView keep = .ok view) :
    Json.Revises LeavesOut f.json view.json := by
  induction hkeeps generalizing keep view with
  | object hobject =>
    obtain ⟨-, rfl⟩ | ⟨hnot, -⟩ := partialView_eq_ok_iff.1 hview
    · exact revises_withRequired (requiresNames_of_isSchema hschema)
    · simp [hobject] at hnot
  | @union f items hitems hobjects _ ih =>
    obtain ⟨-, rfl⟩ | ⟨-, -, views, hviews, rfl⟩ := partialView_eq_ok_iff.1 hview
    · exact revises_withRequired (requiresNames_of_isSchema hschema)
    · obtain ⟨before, after, hkeywords, hnew⟩ :=
        Entries.exists_replaced hwf.1 hitems (.array (views.map json))
      have hview : (f.withMembers "anyOf" views).json
          = .object (before ++ ("anyOf", .array (views.map json)) :: after) := congrArg Json.object hnew
      rw [hview, json, hkeywords]
      exact .union (Json.revises_array (forall₂_views hitems hobjects hschema hwf hviews
        fun member hmember hmemberSchema hmemberWf view => ih member hmember hmemberSchema hmemberWf))

/-! ## The size of views -/

/-- Each member of an object is found in another one, at least as large. -/
def Shrinks (keywords others : Entries Json) : Prop :=
  ∀ entry ∈ others, ∃ old, Entries.lookup entry.1 keywords = some old
    ∧ entry.2.positions ≤ old.positions

section Size

variable {keywords others : Entries Json} {key : String} {value old : Json}

lemma shrinks_insert (hsorted : keywords.Sorted) (hlookup : Entries.lookup key keywords = some old)
    (hle : value.positions ≤ old.positions) : Shrinks keywords (Entries.insert key value keywords) := by
  intro entry hentry
  rcases Entries.mem_insert hentry with rfl | hentry
  · exact ⟨old, hlookup, hle⟩
  · exact ⟨entry.2, Entries.lookup_of_mem hsorted hentry, Nat.le_refl _⟩

lemma shrinks_erase (hsorted : keywords.Sorted) : Shrinks keywords (Entries.erase key keywords) :=
  fun entry hentry => ⟨entry.2, Entries.lookup_of_mem hsorted (List.mem_filter.1 hentry).1, Nat.le_refl _⟩

lemma Shrinks.erase (h : Shrinks keywords others) :
    Shrinks (Entries.erase key keywords) (Entries.erase key others) := by
  intro entry hentry
  obtain ⟨hmem, hkey⟩ := List.mem_filter.1 hentry
  obtain ⟨old, hlookup, hle⟩ := h entry hmem
  exact ⟨old, (Document.lookup_erase_of_ne (of_decide_eq_true hkey) keywords).trans hlookup, hle⟩

lemma Shrinks.positions_le (h : Shrinks keywords others) (hsorted : keywords.Sorted)
    (hsorted' : others.Sorted) : (Json.object others).positions ≤ (Json.object keywords).positions :=
  Nat.succ_le_succ (Json.membersPositions_le hsorted' hsorted h)

lemma itemsPositions_le_of_sublist {few many : List Json} (h : few.Sublist many) :
    Json.itemsPositions few ≤ Json.itemsPositions many := by
  induction h with
  | slnil => exact Nat.le_refl _
  | cons item _ ih => exact Nat.le_trans ih (Nat.le_add_left _ _)
  | cons_cons item _ ih => exact Nat.add_le_add_left ih _

lemma itemsPositions_le_of_forall₂ {few many : List Json}
    (h : List.Forall₂ (fun old new => new.positions ≤ old.positions) many few) :
    Json.itemsPositions few ≤ Json.itemsPositions many := by
  induction h with
  | nil => exact Nat.le_refl _
  | cons hitem _ ih => exact Nat.add_le_add hitem ih

end Size

lemma shrinks_withRequired (hnames : RequiresNames f.keywords) (hsorted : f.keywords.Sorted)
    {required : List Json} (hrequired : required.Sublist f.requiredSeq) :
    Shrinks f.keywords (f.withRequired required).keywords := by
  cases required with
  | nil => exact shrinks_erase hsorted
  | cons name names =>
    cases hlookup : Entries.lookup "required" f.keywords with
    | none => simp [requiredSeq, get?, hlookup, Json.seq] at hrequired
    | some argument =>
      obtain ⟨all, rfl⟩ := hnames argument hlookup
      rw [requiredSeq, get?, hlookup] at hrequired
      exact shrinks_insert hsorted hlookup (Nat.succ_le_succ (itemsPositions_le_of_sublist hrequired))

/-- **A view is no larger** than its schema. -/
lemma shrinks_view (hkeeps : f.KeepsMembers) (hschema : draft.isSchema f.json = true)
    (hwf : f.json.WellFormed) (hview : f.partialView keep = .ok view) :
    Shrinks f.keywords view.keywords := by
  induction hkeeps generalizing keep view with
  | object hobject =>
    obtain ⟨-, rfl⟩ | ⟨hnot, -⟩ := partialView_eq_ok_iff.1 hview
    · exact shrinks_withRequired (requiresNames_of_isSchema hschema) hwf.1 List.filter_sublist
    · simp [hobject] at hnot
  | @union f items hitems hobjects _ ih =>
    obtain ⟨-, rfl⟩ | ⟨-, -, views, hviews, rfl⟩ := partialView_eq_ok_iff.1 hview
    · exact shrinks_withRequired (requiresNames_of_isSchema hschema) hwf.1 List.filter_sublist
    · refine shrinks_insert hwf.1 hitems (Nat.succ_le_succ (itemsPositions_le_of_forall₂ ?_))
      refine forall₂_views hitems hobjects hschema hwf hviews
        fun member hmember hmemberSchema hmemberWf view hview => ?_
      exact (ih member hmember hmemberSchema hmemberWf hview).positions_le hmemberWf.1
        (wellFormed_view hmemberWf hview).1

/-! ## The verdict -/

variable {options : Option Options} {extensions : List Extension}

/-- A view is compiled with the options of its schema. -/
lemma settings_view (hview : f.partialView keep = .ok view) :
    view.settings options = f.settings options := by
  have hoptions : view.options? = f.options? := congrArg (Option.bind · _) (partialView_keeps hview).1
  rw [settings, settings, hoptions]

/-- **The document of a view** requires fewer names. -/
lemma shifts_view (hcompiles : f.CompilesWith options extensions) (hview : f.partialView keep = .ok view)
    (hwf : f.json.WellFormed) (hkeeps : f.KeepsMembers)
    (hclasses : view.registry options = f.registry options)
    (hfirm : ∀ location keywords others,
      (f.matcherWith options extensions).document.Counts false location → location.value = .object keywords →
      (view.matcherWith options extensions).document.root.walk? location.path = some (.object others) →
      namesRequired keywords ⊆ namesRequired others) :
    (f.matcherWith options extensions).Shifts LeavesOut (view.matcherWith options extensions) := by
  have hsettings : view.settings options = f.settings options := settings_view hview
  have hschema := (Matcher.check_eq_ok_iff.1 hcompiles.check).1
  have hwf' := wellFormed_view hwf hview
  exact
    { alike :=
        ⟨congrArg (fun settings => settings.matcher.enforcesFormats) hsettings.symm, rfl, hclasses.symm⟩
      revises := by
        rw [matcherWith, matcherWith, hsettings]
        exact Document.revises_ofJson (revises_view hkeeps hschema hwf hview) _
      fewer := fun _ _ hfewer => hfewer.subset
      firm := hfirm
      listed := Document.listed_ofJson _ hwf
      listed' := Document.listed_ofJson _ hwf'
      wellFormed := Document.root_ofJson _ _ ▸ Document.wellFormed_kept hwf
      wellFormed' := Document.root_ofJson _ _ ▸ Document.wellFormed_kept hwf' }

/-- **Views accept more.**  A view of a schema that loses no member of a union, knows its classes, and
requires the names that it does in each schema that counts against a value, accepts the values that the
schema accepts, if matching them ends. -/
theorem view_accepts (f view : Fragment) (keep : List String) (options : Option Options)
    (validator other : Validator) (hcompiles : Validator.compile f options = .ok validator)
    (hview : f.partialView keep = .ok view) (hother : Validator.compile view options = .ok other)
    (hwf : f.json.WellFormed) (hkeeps : f.KeepsMembers)
    (hclasses : ∀ name, (view.registry options).get? name = (f.registry options).get? name)
    (hfirm : ∀ location keywords others, validator.matcher.document.Counts false location →
      location.value = .object keywords →
      other.matcher.document.root.walk? location.path = some (.object others) →
      namesRequired keywords ⊆ namesRequired others)
    (value : Json) (hends : other.matcher.Ends value) (haccepts : validator.matcher.accepts value = true) :
    other.matcher.accepts value = true := by
  obtain ⟨extensions, hwith, hmatcher, -⟩ := compiled_parts hcompiles
  obtain ⟨more, hwith', hmatcher', -⟩ := compiled_parts hother
  -- the view carries the options of the schema, so its keywords are extended alike
  obtain rfl : extensions = more :=
    Except.ok.inj (hwith.resolve.symm.trans ((settings_view hview ▸ hwith'.resolve)))
  rw [hmatcher, hmatcher'] at hfirm
  rw [hmatcher] at haccepts
  rw [hmatcher'] at hends ⊢
  have hschema := (Matcher.check_eq_ok_iff.1 hwith.check).1
  -- the view is no larger, so the budget of the schema suffices for both
  have hsize : (Document.kept view.json).positions ≤ (Document.kept f.json).positions :=
    (shrinks_view hkeeps hschema hwf hview).erase.positions_le (hwf.1.filter _)
      ((wellFormed_view hwf hview).1.filter _)
  have hshifts := shifts_view hwith hview hwf hkeeps (Registry.ext_get? hclasses) hfirm
  exact hshifts.accepts_mono hsize hends haccepts

/-! ### Trees of texts -/

/-- The schema of a tag. -/
def kindSchema (kind : String) : Json :=
  .object [("const", .string kind), ("type", .string "string")]

/-- A reference to the schema of trees. -/
def treeReference : Json :=
  .object [("$ref", .string "#")]

/-- The children of a branch. -/
def childrenSchema : Json :=
  .object [("items", treeReference), ("type", .string "array")]

/-- The values that no leaf holds. -/
def refusedDefinition : Json :=
  .object [("required", .array [.string "banned"])]

/-- A reference to their definition. -/
def refusedReference : Json :=
  .object [("$ref", .string "#/definitions/refused")]

/-- The values that a leaf may hold. -/
def heldSchema : Json :=
  .object [("not", refusedReference)]

/-- Objects with children. -/
def branchSchema (required : List String) : Fragment where
  keywords :=
    [("properties", .object [("children", childrenSchema), ("kind", kindSchema "branch")]),
      ("required", .array (required.map .string)), ("type", .string "object")]

/-- Objects that hold a value. -/
def leafSchema (required : List String) : Fragment where
  keywords :=
    [("properties", .object [("held", heldSchema), ("kind", kindSchema "leaf")]),
      ("required", .array (required.map .string)), ("type", .string "object")]

/-- Trees, of branches and leaves that are told apart by their kind. -/
def treeSchema (ofBranches ofLeaves : List String) : Fragment where
  keywords :=
    [("anyOf", .array [(branchSchema ofBranches).json, (leafSchema ofLeaves).json]),
      ("definitions", .object [("refused", refusedDefinition)])]
  records := Table.ofPairs [("", { taggedUnion := some ⟨"kind", (ofKind .string).json⟩ })]

/-- Trees whose nodes are complete. -/
abbrev wholeTree : Fragment :=
  treeSchema ["children", "kind"] ["held", "kind"]

/-- Trees whose nodes may lack anything but their kind. -/
abbrev partTree : Fragment :=
  treeSchema ["kind"] ["kind"]

lemma partialView_wholeTree : wholeTree.partialView [] = .ok partTree := by
  have hmembers : wholeTree.members "anyOf"
      = [branchSchema ["children", "kind"], leafSchema ["held", "kind"]] := rfl
  refine partialView_eq_ok_iff.2 (Or.inr
    ⟨rfl, rfl, [branchSchema ["kind"], leafSchema ["kind"]], ?_, rfl⟩)
  rw [hmembers, List.mapM_cons, List.mapM_cons, List.mapM_nil, partialView_eq, partialView_eq]
  rfl

lemma keepsMembers_wholeTree : wholeTree.KeepsMembers := by
  refine .union rfl (by decide) fun member hmember => .object ?_
  have hobjects : ∀ member ∈ wholeTree.members "anyOf", member.isObject = true :=
    List.all_eq_true.1 (by decide +kernel)
  exact hobjects member hmember

/-- What counts for a tree, or against it. -/
def treeStances : List (Bool × Location) :=
  [(true, [], wholeTree.json),
    (true, ["anyOf", "0"], (branchSchema ["children", "kind"]).json),
    (true, ["anyOf", "0", "properties", "children"], childrenSchema),
    (true, ["anyOf", "0", "properties", "children", "items"], treeReference),
    (true, ["anyOf", "0", "properties", "kind"], kindSchema "branch"),
    (true, ["anyOf", "1"], (leafSchema ["held", "kind"]).json),
    (true, ["anyOf", "1", "properties", "held"], heldSchema),
    (true, ["anyOf", "1", "properties", "kind"], kindSchema "leaf"),
    (false, ["anyOf", "1", "properties", "held", "not"], refusedReference),
    (false, ["definitions", "refused"], refusedDefinition)].map
      fun (stance, path, schema) => (stance, ⟨plainScope, path, schema⟩)

/-- Only the definition of what is refused, and the reference to it, count against a tree. -/
lemma against_wholeTree {location : Location}
    (h : (wholeTree.matcherWith none [.typeOf]).document.Counts false location) :
    location.value = refusedReference
      ∨ location.path = ["definitions", "refused"] ∧ location.value = refusedDefinition := by
  have hmem : (false, location) ∈ treeStances :=
    Graph.mem_of_leads (by decide +kernel) (by decide +kernel) h
  simp only [treeStances, List.map_cons, List.map_nil, List.mem_cons, Prod.mk.injEq, Bool.false_eq_true,
    false_and, false_or, true_and, List.not_mem_nil, or_false] at hmem
  rcases hmem with rfl | rfl
  · exact Or.inl rfl
  · exact Or.inr ⟨rfl, rfl⟩

/-- The places that matching a part of a tree comes to; at one value, it comes from each to earlier ones
only. -/
def treePlaces : List Matcher.Place :=
  [refusedDefinition, refusedReference, heldSchema, kindSchema "leaf", kindSchema "branch",
    (leafSchema ["kind"]).json, (branchSchema ["kind"]).json, partTree.json, treeReference,
    childrenSchema].map fun schema => (plainScope, schema)

lemma ends_partTree (value : Json) : (partTree.matcherWith none [.typeOf]).Ends value := by
  have hwf : partTree.json.WellFormed := by decide
  have hstart : (partTree.matcherWith none [.typeOf]).start ∈ treePlaces := by decide +kernel
  exact Matcher.ends_of_listed (Document.listed_ofJson _ hwf) (Document.wellFormed_kept hwf) hstart
    (by decide +kernel) (by decide +kernel) (by decide +kernel) value

/-- A leaf that holds an object without members. -/
def emptyLeaf : Json :=
  .object [("held", .object []), ("kind", .string "leaf")]

/-- Trees are accepted as parts of trees. -/
theorem tree_parts_accepted : ∃ validator other, Validator.compile wholeTree none = .ok validator
    ∧ wholeTree.partialView [] = .ok partTree ∧ Validator.compile partTree none = .ok other
    ∧ validator.matcher.accepts emptyLeaf = true
    ∧ ∀ value, validator.matcher.accepts value = true → other.matcher.accepts value = true := by
  obtain ⟨validator, hcompiles⟩ : ∃ validator, Validator.compile wholeTree none = .ok validator :=
    exists_of_isOk (by decide +kernel)
  obtain ⟨other, hother⟩ : ∃ other, Validator.compile partTree none = .ok other :=
    exists_of_isOk (by decide +kernel)
  obtain ⟨extensions, hwith, hmatcher, -⟩ := compiled_parts hcompiles
  obtain ⟨more, hwith', hmatcher', -⟩ := compiled_parts hother
  obtain rfl : [.typeOf] = extensions := Except.ok.inj hwith.resolve
  obtain rfl : [.typeOf] = more := Except.ok.inj hwith'.resolve
  have hclasses : partTree.registry none = wholeTree.registry none := rfl
  have hleaf : (wholeTree.matcherWith none [.typeOf]).accepts emptyLeaf = true := by decide +kernel
  refine ⟨validator, other, hcompiles, partialView_wholeTree, hother, hmatcher ▸ hleaf,
    fun value haccepts => ?_⟩
  refine view_accepts wholeTree partTree [] none validator other hcompiles partialView_wholeTree hother
    (by decide) keepsMembers_wholeTree (fun name => hclasses ▸ rfl) ?_ value
    (hmatcher' ▸ ends_partTree value) haccepts
  intro location keywords others hcounts hvalue hwalk
  rw [hmatcher] at hcounts
  rw [hmatcher'] at hwalk
  rcases against_wholeTree hcounts with hreference | ⟨hpath, hdefinition⟩
  · obtain rfl := Json.object.inj (hreference.symm.trans hvalue)
    exact List.nil_subset _
  · have hsame : (partTree.matcherWith none [.typeOf]).document.root.walk? location.path
        = some location.value := by
      rw [hpath, hdefinition]
      rfl
    rw [hsame, hvalue] at hwalk
    obtain rfl := Json.object.inj (Option.some.inj hwalk)
    exact List.Subset.refl _

/-! ### Views that accept less -/

/-- Objects with a name, of which the inner one is none of these. -/
def innerUnnamed : Fragment where
  keywords :=
    [("properties", .object [("inner", .object [("not", treeReference)])]),
      ("required", .array [.string "name"]), ("type", .string "object")]

/-- Objects with a name, with a list in which at most one is of these. -/
def oneNamed : Fragment where
  keywords :=
    [("properties", .object [("list", .object [("contains", treeReference), ("maxContains", .int 1)])]),
      ("required", .array [.string "name"]), ("type", .string "object")]
  records := Table.ofPairs
    [("", { validatorOptions := some { matcher := { draft := some .draft201909 } } })]

/-- A union of anything and objects, with a tag. -/
def anythingOrObject : Fragment where
  keywords :=
    [("anyOf", .array
      [.bool true, .object [("properties", .object []), ("type", .string "object")]])]
  records := Table.ofPairs [("", { taggedUnion := some ⟨"kind", (ofKind .string).json⟩ })]

/-- A union that carries two classes of one name, the first of them under an index with a leading zero. -/
def carryingTwoClasses : Fragment where
  keywords :=
    [("anyOf", .array [.object [("instanceOf", .string "C"), ("properties", .object []),
      ("type", .string "object")]])]
  records := Table.ofPairs
    [("", { taggedUnion := some ⟨"kind", (ofKind .string).json⟩ }),
      ("/anyOf/00", { constructors := some (Class.table [⟨"C", fun _ => true, .ok⟩]) }),
      ("/definitions/other", { constructors := some (Class.table [⟨"C", fun _ => false, .ok⟩]) })]

/-- A reference to a definition. -/
def deniedReference : Json :=
  .object [("$ref", .string "#/definitions/denied")]

/-- Objects of a definition that denies itself, so that matching goes in a circle. -/
def selfDenying : Fragment where
  keywords :=
    [("allOf", .array [deniedReference]),
      ("definitions", .object [("denied", .object [("not", deniedReference)])]),
      ("properties", .object []), ("required", .array [.string "name"]), ("type", .string "object")]

/-- If a schema and its view compile, the view accepts a value that the schema accepts. -/
def ViewAccepts (f : Fragment) (keep : List String) (value : Json) : Prop :=
  ∀ view validator other, f.partialView keep = .ok view → Validator.compile f none = .ok validator →
    Validator.compile view none = .ok other → validator.matcher.accepts value = true →
    other.matcher.accepts value = true

/-- Whether a schema and its view compile, and the view refuses a value that the schema accepts. -/
def viewRefuses (f : Fragment) (keep : List String) (value : Json) : Bool :=
  match f.partialView keep, Validator.compile f none with
  | .ok view, .ok validator =>
    match Validator.compile view none with
    | .ok other => validator.matcher.accepts value && !other.matcher.accepts value
    | .error _ => false
  | _, _ => false

lemma not_viewAccepts {value : Json} (h : f.viewRefuses keep value = true) :
    ¬ f.ViewAccepts keep value := by
  intro haccepts
  unfold viewRefuses at h
  split at h
  · rename_i view validator hview hvalidator
    split at h
    · rename_i other hother
      rw [Bool.and_eq_true, Bool.not_eq_true'] at h
      have hother := haccepts view validator other hview hvalidator hother h.1
      simp [hother] at h
    · simp at h
  · simp at h

/-- In a view, more values satisfy a schema that must not be satisfied, or not by more than one item; a
member of a union that is no object gets lost, and so does a class that stands beside the members; and where
matching does not end, its verdict is left to the budget, which is smaller for the view. -/
theorem views_may_refuse :
    ¬ innerUnnamed.ViewAccepts [] (.object [("inner", .object []), ("name", .null)])
      ∧ ¬ oneNamed.ViewAccepts []
        (.object [("list", .array [.object [("name", .int 1)], .object []]), ("name", .int 0)])
      ∧ ¬ anythingOrObject.ViewAccepts [] .null
      ∧ ¬ carryingTwoClasses.ViewAccepts [] (.object [])
      ∧ ¬ selfDenying.ViewAccepts [] (.object [("name", .array [.array []])]) := by
  refine ⟨not_viewAccepts ?_, not_viewAccepts ?_, not_viewAccepts ?_, not_viewAccepts ?_,
    not_viewAccepts ?_⟩
  all_goals decide +kernel

end Fragment

end SchemaAlgebra
