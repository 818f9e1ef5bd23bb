import SchemaAlgebra.Proofs.Views

/-!
# Reworked schemas keep what they carry

Four operations make a schema of a schema: `nullable`, `extending`, `removeProperty` and `partialView`.
A fragment that stands by itself (`Fragment.StandsByItself`) compiles with the classes and transforms
that it carries.  What an operation makes of it

* carries the transforms that its nested schemas name, wherever these have moved;
* loses those of its own record if it is merged on the way (`Rework.dropsRoot`), although the keyword
  `transform` stays;
* loses the classes of the records that are left out, also for other schemas that name them.

**`Rework.compile_unknown_iff`** — the result fails to compile over a name in these cases, and in no
others.
-/

namespace SchemaAlgebra

namespace Fragment

variable {known : String → Prop} {f g child : Fragment} {keyword : String}

/-! ## Properties of several schemas -/

lemma mem_putNamed {name : String} {entries : List (String × Fragment)}
    {entry : String × Fragment} (h : entry ∈ putNamed name child entries) :
    entry = (name, child) ∨ entry ∈ entries := by
  induction entries with
  | nil => exact Or.inl (List.mem_singleton.1 h)
  | cons head rest ih =>
    obtain ⟨other, f⟩ := head
    unfold putNamed at h
    split at h
    · rename_i heq
      rcases List.mem_cons.1 h with rfl | h
      · exact Or.inl (by rw [heq])
      · exact Or.inr (List.mem_cons_of_mem _ h)
    · rcases List.mem_cons.1 h with rfl | h
      · exact Or.inr List.mem_cons_self
      · exact (ih h).imp_right (List.mem_cons_of_mem _)

lemma nodup_putNamed {name : String} {entries : List (String × Fragment)}
    (h : (entries.map Prod.fst).Nodup) : ((putNamed name child entries).map Prod.fst).Nodup := by
  induction entries with
  | nil => simp [putNamed]
  | cons head rest ih =>
    obtain ⟨other, f⟩ := head
    obtain ⟨hother, hrest⟩ := List.nodup_cons.1 h
    unfold putNamed
    split
    · exact List.nodup_cons.2 ⟨hother, hrest⟩
    · rename_i hne
      refine List.nodup_cons.2 ⟨fun hmem => ?_, ih hrest⟩
      obtain ⟨entry, hentry, heq⟩ := List.mem_map.1 hmem
      rcases mem_putNamed hentry with rfl | hentry
      · exact hne heq.symm
      · exact hother (List.mem_map.2 ⟨entry, hentry, heq⟩)

/-- Gathered properties have distinct names, and are each declared by one of the schemas. -/
lemma gatherProperties_spec (sources : List Fragment) :
    ((gatherProperties sources).map Prod.fst).Nodup ∧ ∀ entry ∈ gatherProperties sources,
      ∃ source ∈ sources, entry ∈ source.children "properties" := by
  have hfold : ∀ (declared gathered : List (String × Fragment)), (gathered.map Prod.fst).Nodup →
      ((declared.foldl (fun gathered child => putNamed child.1 child.2 gathered)
        gathered).map Prod.fst).Nodup
      ∧ ∀ entry ∈ declared.foldl (fun gathered child => putNamed child.1 child.2 gathered) gathered,
        entry ∈ declared ∨ entry ∈ gathered := by
    intro declared
    induction declared with
    | nil => exact fun gathered h => ⟨h, fun entry hentry => Or.inr hentry⟩
    | cons first declared ih =>
      intro gathered h
      obtain ⟨hnodup, hmem⟩ := ih (putNamed first.1 first.2 gathered) (nodup_putNamed h)
      refine ⟨hnodup, fun entry hentry => ?_⟩
      rcases hmem entry hentry with hentry | hentry
      · exact Or.inl (List.mem_cons_of_mem _ hentry)
      · refine (mem_putNamed hentry).imp_left fun heq => ?_
        rw [heq]
        exact List.mem_cons_self
  obtain ⟨hnodup, hmem⟩ := hfold (sources.flatMap fun source => source.children "properties") []
    List.nodup_nil
  refine ⟨hnodup, fun entry hentry => ?_⟩
  rcases hmem entry hentry with hentry | hentry
  · exact List.mem_flatMap.1 hentry
  · exact absurd hentry List.not_mem_nil

/-- The names under a keyword are distinct. -/
lemma nodup_children (hwf : f.json.WellFormed) (keyword : String) :
    ((f.children keyword).map Prod.fst).Nodup := by
  unfold children
  split
  · rename_i members hmembers
    have hsorted : Entries.Sorted members := by
      have hwalk : f.json.walk? [keyword] = some (.object members) := by
        rw [json, Json.walk?_object hmembers, Json.walk?_nil]
      exact (Json.wellFormed_of_walk? hwf hwalk).1
    have hnames : ∀ names : List String, (names.filterMap fun name =>
        (f.at? [keyword, name]).map fun child => (name, child)).map Prod.fst
          = names.filter fun name => (f.at? [keyword, name]).isSome := by
      intro names
      induction names with
      | nil => rfl
      | cons name names ih =>
        cases hname : f.at? [keyword, name] <;> simp [hname, ih]
    rw [hnames]
    exact (Entries.nodup_of_sorted hsorted).filter _
  · exact List.nodup_nil

/-! ## Results -/

/-- What an operation makes of a fragment: a fragment that is sound everywhere, or one that is so
inside, names what the original names, and has no record of its own. -/
inductive Yields (known : String → Prop) (f out : Fragment) : Bool → Prop
  | whole : out.Everywhere known → out.root? = f.root? ∨ out.root? = none → Yields known f out false
  | stripped : out.Nested known → out.root? = none →
      (∀ keyword, IsNaming keyword → Entries.lookup keyword out.keywords
        = (Entries.lookup keyword f.keywords).filter fun value => !value.isNull) →
      Yields known f out true

lemma yields_merged (hsorted : f.keywords.Sorted) (h : f.Everywhere known) :
    Yields known f (merged [f]) true :=
  .stripped (fun keyword => (h.nested keyword).of_keeps (keepsUnder_merged hsorted)) (root?_merged f)
    fun keyword _ => lookup_merged_keywords hsorted keyword

lemma Yields.nested (h : Yields known f g true) : g.Nested known := by
  cases h with
  | stripped hnested _ _ => exact hnested

/-- Changing what is inside yields the same. -/
lemma Yields.of_nested {out : Fragment} (h : Yields known f g true) (hnested : out.Nested known)
    (hroot : out.root? = g.root?) (hkeeps : ∀ keyword, IsNaming keyword →
      Entries.lookup keyword out.keywords = Entries.lookup keyword g.keywords) :
    Yields known f out true := by
  cases h with
  | stripped _ hnone hnames =>
    exact .stripped hnested (hroot.trans hnone) fun keyword hnaming =>
      (hkeeps keyword hnaming).trans (hnames keyword hnaming)

lemma Yields.withRequired (h : Yields known f g true) (required : List Json) :
    Yields known f (g.withRequired required) true :=
  h.of_nested (h.nested.withRequired required) (root?_withRequired g required)
    fun _ hnaming => lookup_withRequired_keywords (hnaming.ne (by decide)).symm required

lemma Yields.withProperties (h : Yields known f g true) {properties : List (String × Fragment)}
    (hnodup : (properties.map Prod.fst).Nodup)
    (hproperties : ∀ entry ∈ properties, entry.2.Everywhere known ∧ entry.2.WellPlaced) :
    Yields known f (g.withChildren "properties" properties) true := by
  have hplaced := fun entry hentry => (hproperties entry hentry).2
  refine h.of_nested (fun keyword => ?_) (lookup_adoptAll_of_head hplaced (head?_nil_ne _))
    fun _ hnaming => Entries.lookup_insert_of_ne (hnaming.ne (by decide)) _ _
  by_cases hkeyword : "properties" = keyword
  · subst hkeyword
    exact soundUnder_withChildren (by decide) hplaced hnodup fun entry hentry =>
      (hproperties entry hentry).1
  · exact (h.nested keyword).of_keeps (keepsUnder_withChildren hkeyword hplaced)

/-! ### Nullable schemas -/

/-- Whether `nullable` adds a member to the union that the schema is. -/
def gainsNull (f : Fragment) : Bool :=
  match f.get? "anyOf" with
  | some (.array items) => !items.any admitsNull
  | _ => false

lemma nullable_cases (f : Fragment) :
    (f.gainsNull = true ∧ f.nullable = (merged [f]).pushMember "anyOf" (ofKind .null)
      ∧ ∃ items, f.get? "anyOf" = some (.array items))
    ∨ (f.gainsNull = false ∧ (f.nullable = f ∨ f.nullable = anyOf [f, ofKind .null])) := by
  unfold nullable
  split
  · rename_i items hitems
    have hgains : f.gainsNull = !items.any admitsNull := by simp only [gainsNull, hitems]
    split
    · rename_i hadmits
      exact Or.inr ⟨by rw [hgains, hadmits]; rfl, Or.inl rfl⟩
    · rename_i hadmits
      exact Or.inl ⟨by rw [hgains]; simpa using hadmits, rfl, items, hitems⟩
  · rename_i hnone
    have hgains : f.gainsNull = false := by
      unfold gainsNull
      split
      · rename_i items hitems
        exact absurd hitems (hnone items)
      · rfl
    exact Or.inr ⟨hgains, Or.inr rfl⟩

lemma everywhere_ofKind (known : String → Prop) (kind : Kind) :
    (ofKind kind).Everywhere known := by
  have hkeywords : (ofKind kind).keywords = [("type", .string kind.name)] := rfl
  refine ⟨?_, ?_⟩
  · rw [hkeywords]
    exact sound_of_silent rfl rfl rfl
  · intro keyword argument tokens value rest inner hargument hinside
    rw [hkeywords] at hargument
    obtain ⟨-, rfl⟩ := Prod.mk.inj (List.mem_singleton.1 (Entries.mem_of_lookup hargument))
    simp [Json.insideOf] at hinside

/-- The schema made a member of a union takes its records along. -/
lemma everywhere_orNull (h : f.Everywhere known) :
    (anyOf [f, ofKind .null]).Everywhere known ∧ (anyOf [f, ofKind .null]).root? = none := by
  have hrecords : (anyOf [f, ofKind .null]).records
      = adopt .empty (Pointer.join "" ["anyOf", "0"]) f.records := rfl
  have hkeywords : (anyOf [f, ofKind .null]).keywords
      = [("anyOf", .array [f.json, (ofKind .null).json])] := rfl
  refine ⟨⟨?_, ?_⟩, ?_⟩
  · rw [hkeywords]
    exact sound_of_silent rfl rfl rfl
  · intro keyword argument tokens value rest inner hargument hinside hholds
    rw [hkeywords] at hargument
    obtain ⟨rfl, rfl⟩ := Prod.mk.inj (List.mem_singleton.1 (Entries.mem_of_lookup hargument))
    obtain ⟨index, hvalue, rfl⟩ := (Json.insideOf_list (by decide) _).1 hinside
    match index, hvalue with
    | 0, hvalue =>
      obtain rfl := Option.some.inj hvalue
      have hcarried : (anyOf [f, ofKind .null]).transformsOn (["anyOf", "0"] ++ rest)
          = f.transformsOn rest := by
        rw [transformsOn, hrecords, Pointer.join_root_append]
        exact transformsIn_adopt rfl
      exact hcarried ▸ h.sound hholds
    | 1, hvalue =>
      obtain rfl := Option.some.inj hvalue
      have hsound := (everywhere_ofKind known .null).sound hholds
      exact Sound.of_none hsound
    | index + 2, hvalue => simp at hvalue
  · rw [root?, recordAt?, hrecords, lookup_adopt_of_not]
    · rfl
    · intro entry _ heq
      have hlength := congrArg (List.length ∘ String.toList) heq
      simp [Pointer.join] at hlength

lemma yields_nullable (hsorted : f.keywords.Sorted) (h : f.Everywhere known) :
    Yields known f f.nullable f.gainsNull := by
  rcases f.nullable_cases with ⟨hgains, heq, items, hitems⟩ | ⟨hgains, heq | heq⟩
  · have hmerged : (merged [f]).get? "anyOf" = some (.array items) := by
      have hfound : Entries.lookup "anyOf" f.keywords = some (.array items) := hitems
      rw [get?, lookup_merged_keywords hsorted, hfound]
      rfl
    have hyields := yields_merged hsorted h
    obtain ⟨hpushed, hrecords, hlookup⟩ := hyields.nested.pushMember hmerged (by decide)
      (everywhere_ofKind known .null) rfl
    rw [hgains, heq]
    refine hyields.of_nested hpushed ?_ fun keyword hnaming => hlookup keyword (hnaming.ne (by decide))
    rw [root?, recordAt?, hrecords]
    rfl
  · rw [hgains, heq]
    exact .whole h (Or.inl rfl)
  · rw [hgains, heq]
    exact .whole (everywhere_orNull h).1 (Or.inr (everywhere_orNull h).2)

/-! ### Properties -/

lemma yields_extending (hsorted : f.keywords.Sorted) (h : f.Everywhere known)
    {bases : List Fragment} (hbases : ∀ base ∈ bases, base.Everywhere known) :
    Yields known f (f.extending bases) true := by
  obtain ⟨hnodup, hsources⟩ := gatherProperties_spec (bases ++ [f])
  refine ((yields_merged hsorted h).withProperties hnodup fun entry hentry => ?_).withRequired _
  obtain ⟨source, hsource, hchild⟩ := hsources entry hentry
  have hsound : source.Everywhere known := by
    rcases List.mem_append.1 hsource with hsource | hsource
    · exact hbases source hsource
    · exact List.mem_singleton.1 hsource ▸ h
  exact hsound.of_children (by decide) hchild

lemma yields_removeProperty (hwf : f.json.WellFormed) (h : f.Everywhere known)
    {names : List String} {out : Fragment} (hout : f.removeProperty names = .ok out) :
    Yields known f out true := by
  unfold removeProperty at hout
  split at hout
  · simp at hout
  · simp at hout
  · obtain rfl := Except.ok.inj hout
    have hyields : Yields known f ((merged [f]).withChildren "properties"
        ((f.children "properties").filter fun child => !names.contains child.1)) true := by
      refine (yields_merged hwf.1 h).withProperties ?_ fun entry hentry => ?_
      · exact (nodup_children hwf "properties").sublist (List.filter_sublist.map _)
      · exact h.of_children (by decide) (List.mem_filter.1 hentry).1
    exact hyields.of_nested (hyields.nested.withKeyword (by decide) _)
      (lookup_withKeyword (head?_nil_ne _) _)
      fun _ hnaming => Entries.lookup_insert_of_ne (hnaming.ne (by decide)) _ _

/-! ### Partial views -/

lemma Everywhere.withRequired (h : f.Everywhere known) (required : List Json) :
    (f.withRequired required).Everywhere known :=
  h.of_nested (h.nested.withRequired required) (root?_withRequired f required)
    fun _ hnaming => lookup_withRequired_keywords (hnaming.ne (by decide)).symm required

lemma Everywhere.withMembers (h : f.Everywhere known) {members : List Fragment}
    (hmembers : ∀ member ∈ members, member.Everywhere known ∧ member.WellPlaced) :
    (f.withMembers "anyOf" members).Everywhere known := by
  have hplaced := fun member hmember => (hmembers member hmember).2
  refine h.of_nested (fun keyword => ?_) (root?_withMembers f "anyOf" hplaced)
    fun _ hnaming => Entries.lookup_insert_of_ne (hnaming.ne (by decide)) _ _
  by_cases hkeyword : "anyOf" = keyword
  · subst hkeyword
    exact soundUnder_withMembers (by decide) hplaced fun member hmember =>
      (hmembers member hmember).1
  · exact (h.nested keyword).of_keeps (keepsUnder_withMembers hkeyword hplaced)

/-- A partial view is sound where the schema is, member by member. -/
lemma everywhere_partialView {keep : List String} {out : Fragment} (h : f.Everywhere known)
    (hout : f.partialView keep = .ok out) : out.Everywhere known := by
  induction f using induction_on_members generalizing keep out with
  | step f ih =>
    obtain ⟨-, rfl⟩ | ⟨-, -, views, hviews, rfl⟩ := partialView_eq_ok_iff.1 hout
    · exact h.withRequired _
    · refine h.withMembers fun view hview => ⟨?_, wellPlaced_views hviews view hview⟩
      obtain ⟨member, hmember, hview⟩ := (mapM_eq_ok hviews).2 view hview
      exact ih member hmember (h.of_members (by decide) hmember).1 hview

/-! ## Standing alone -/

/-- A fragment without references that compiles, and finds what it names among the built-in classes
and what it carries itself. -/
structure StandsByItself (f : Fragment) : Prop where
  wellFormed : f.json.WellFormed
  refFree : ∀ entry ∈ f.json.subschemas, Entries.lookup "$ref" entry.2 = none
  compiles : ∃ validator, Validator.compile f none = .ok validator
  carries : f.checkNames {} (Registry.build {} f) = .ok ()

/-- Some subschema names the class. -/
def NamesClass (f : Fragment) (name : String) : Prop :=
  ∃ entry ∈ f.json.subschemas, name ∈ namedClasses entry.2

/-- The class is not known when the fragment is compiled as it is. -/
def LacksClass (f : Fragment) (name : String) : Prop :=
  (Registry.build (Options.merged f.options? none) f).contains name = false

lemma knowsTransform_of_sound {path : List String} {inner : Entries Json} {name : String}
    (h : Sound known inner (f.transformsOn path)) (hname : name ∈ namedTransforms inner)
    (options : Options) : f.knowsTransform options (Pointer.join "" path) name = true := by
  obtain ⟨table, htable, hcontains⟩ := h.carries name hname
  have hrecord : (f.recordAt? (Pointer.join "" path)).bind Metadata.transforms = some table := htable
  rw [knowsTransform, hrecord, Option.any_some, hcontains, Bool.or_true]

lemma resolve_of_options?_none (h : f.options? = none) :
    ∃ extensions, Extension.resolve (Options.merged f.options? none).keywords = .ok extensions := by
  rw [h]
  exact ⟨_, rfl⟩

lemma StandsByItself.resolve (h : f.StandsByItself) :
    ∃ extensions, Extension.resolve (Options.merged f.options? none).keywords = .ok extensions := by
  obtain ⟨validator, hcompile⟩ := h.compiles
  obtain ⟨extensions, hextensions, -⟩ := bind_eq_ok.1 hcompile
  exact ⟨extensions, mapError_eq_ok.1 hextensions⟩

section
variable {out : Fragment} {drops : Bool}

lemma Yields.resolve (h : Yields known f out drops) (hf : f.StandsByItself) :
    ∃ extensions, Extension.resolve (Options.merged out.options? none).keywords = .ok extensions := by
  have hnone : out.root? = none → out.options? = none := fun hroot => by rw [options?, hroot]; rfl
  cases h with
  | whole _ hroot =>
    rcases hroot with hroot | hroot
    · have hsame : out.options? = f.options? := by rw [options?, options?, hroot]
      rw [hsame]
      exact hf.resolve
    · exact resolve_of_options?_none (hnone hroot)
  | stripped _ hroot _ => exact resolve_of_options?_none (hnone hroot)

lemma Yields.legible (h : Yields known f out drops) (hf : f.Everywhere known)
    {entry : Pointer × Entries Json} (hentry : entry ∈ out.json.subschemas) :
    Legible known entry.2 := by
  obtain ⟨path, hholds, -⟩ := Json.mem_subschemas.1 hentry
  cases h with
  | whole hsound _ => exact (hsound.sound hholds).legible
  | stripped hnested _ hkeeps =>
    rcases hholds.cases_keyword with ⟨-, heq⟩ | ⟨keyword, argument, tokens, value, rest, hargument,
      hinside, hrest, -⟩
    · rw [heq]
      refine hf.root.legible.of_lookup fun keyword argument hnaming hargument => ?_
      rw [hkeeps keyword hnaming] at hargument
      exact (Option.filter_eq_some_iff.1 hargument).1
    · exact (hnested keyword argument tokens value rest _ hargument hinside hrest).legible

/-- The root of the result names the transforms that the original names. -/
lemma Yields.namedTransforms_eq (h : Yields known f out true) (hf : f.Everywhere known) :
    namedTransforms out.keywords = namedTransforms f.keywords := by
  cases h with
  | stripped _ _ hkeeps =>
    unfold namedTransforms
    rw [hkeeps "transform" (Or.inr (Or.inr rfl))]
    cases hargument : Entries.lookup "transform" f.keywords with
    | none => rfl
    | some argument =>
      obtain ⟨names, hnames⟩ := hf.root.legible.transforms argument hargument
      have hlist : argument.isNull = false := by
        cases argument with
        | array => rfl
        | _ => simp [Json.items?] at hnames
      simp [Option.filter, hlist]

/-- What an operation makes of a fragment lacks a transform just when it is stripped of the record that
had it. -/
lemma Yields.lacks_transform_iff (h : Yields known f out drops) (hf : f.Everywhere known) :
    (∃ entry ∈ out.json.subschemas, ∃ name ∈ namedTransforms entry.2,
      out.knowsTransform (Options.merged out.options? none) entry.1 name = false)
    ↔ drops = true ∧ namedTransforms f.keywords ≠ [] := by
  constructor
  · rintro ⟨⟨pointer, inner⟩, hentry, name, hname, hunknown⟩
    obtain ⟨path, hholds, rfl⟩ := Json.mem_subschemas.1 hentry
    have hunsound : ¬Sound known inner (out.transformsOn path) := fun hsound => by
      simp [knowsTransform_of_sound hsound hname] at hunknown
    cases h with
    | whole hsound _ => exact absurd (hsound.sound hholds) hunsound
    | stripped hnested hroot hkeeps =>
      rcases hholds.cases_keyword with ⟨-, rfl⟩ | ⟨keyword, argument, tokens, value, rest, hargument,
        hinside, hrest, rfl⟩
      · rw [(Yields.stripped hnested hroot hkeeps).namedTransforms_eq hf] at hname
        exact ⟨rfl, List.ne_nil_of_mem hname⟩
      · exact absurd (hnested keyword argument tokens value rest inner hargument hinside hrest) hunsound
  · rintro ⟨rfl, hnamed⟩
    rw [← h.namedTransforms_eq hf] at hnamed
    obtain ⟨name, hname⟩ := List.exists_mem_of_ne_nil _ hnamed
    refine ⟨("", out.keywords), Json.mem_subschemas.2 ⟨[], .self, rfl⟩, name, hname, ?_⟩
    cases h with
    | stripped _ hroot _ =>
      have hrecord : out.recordAt? "" = none := hroot
      simp only [knowsTransform, options?, hroot, hrecord]
      rfl

end

end Fragment

/-! ## Operations -/

/-- An operation that makes a schema of a schema. -/
inductive Rework where
  | nullable
  | extending (bases : List Fragment)
  | removeProperty (names : List String)
  | partialView (keep : List String)

namespace Rework

open Fragment

/-- What the operation makes of a fragment. -/
def apply (f : Fragment) : Rework → Except SchemaError Fragment
  | nullable => .ok f.nullable
  | extending bases => .ok (f.extending bases)
  | removeProperty names => f.removeProperty names
  | partialView keep => f.partialView keep

/-- The other fragments that take part. -/
def bases : Rework → List Fragment
  | extending bases => bases
  | _ => []

/-- Whether the record of the fragment itself is dropped. -/
def dropsRoot (f : Fragment) : Rework → Bool
  | nullable => f.gainsNull
  | extending _ | removeProperty _ => true
  | partialView _ => false

variable {rework : Rework} {f out : Fragment} {known : String → Prop}

lemma yields (hf : f.StandsByItself) (hsound : f.Everywhere known)
    (hbases : ∀ base ∈ rework.bases, base.Everywhere known) (hout : rework.apply f = .ok out) :
    Yields known f out (rework.dropsRoot f) := by
  have hsorted : f.keywords.Sorted := hf.wellFormed.1
  cases rework with
  | nullable =>
    obtain rfl := Except.ok.inj hout
    exact yields_nullable hsorted hsound
  | extending bases =>
    obtain rfl := Except.ok.inj hout
    exact yields_extending hsorted hsound hbases
  | removeProperty names => exact yields_removeProperty hf.wellFormed hsound hout
  | partialView keep =>
    exact .whole (everywhere_partialView hsound hout) (Or.inl (partialView_keeps hout).1)

/-- **Names that are lost.**  A fragment made of fragments that stand by themselves does not compile for
want of a class or a transform just when the record of the original is dropped, which names transforms,
or when a class is named that only records which are dropped have carried. -/
theorem fails_over_name_iff (hf : f.StandsByItself)
    (hbases : ∀ base ∈ rework.bases, base.StandsByItself) (hout : rework.apply f = .ok out) :
    (∃ error, Validator.compile out none = .error error ∧ error.IsUnknownName)
      ↔ (rework.dropsRoot f = true ∧ namedTransforms f.keywords ≠ [])
        ∨ ∃ name, out.NamesClass name ∧ out.LacksClass name
          ∧ ∃ source ∈ f :: rework.bases, source.CarriesClass name := by
  have hsources : ∀ source ∈ f :: rework.bases, source.Everywhere fun name =>
      Class.builtins.contains name = true
        ∨ ∃ source ∈ f :: rework.bases, source.CarriesClass name := by
    intro source hsource
    have hstands : source.StandsByItself := by
      rcases List.mem_cons.1 hsource with rfl | hsource
      · exact hf
      · exact hbases source hsource
    exact (everywhere_of_checkNames hstands.refFree hstands.carries).mono fun name hname =>
      hname.imp_right fun hcarries => ⟨source, hsource, hcarries⟩
  have hsound := hsources f List.mem_cons_self
  have hyields := yields hf hsound
    (fun base hbase => hsources base (List.mem_cons_of_mem _ hbase)) hout
  have hlegible : ∀ entry ∈ out.json.subschemas, Legible _ entry.2 := fun entry hentry =>
    hyields.legible hsound hentry
  obtain ⟨extensions, hextensions⟩ := hyields.resolve hf
  rw [Validator.compile_unknown_iff hlegible hextensions, ← hyields.lacks_transform_iff hsound]
  constructor
  · rintro ⟨entry, hentry, ⟨name, hname, hlacks⟩ | hlacks⟩
    · refine Or.inr ⟨name, ⟨entry, hentry, hname⟩, hlacks, ?_⟩
      refine ((hlegible entry hentry).known_of_mem hname).resolve_left fun hbuiltin => ?_
      rw [Registry.contains_build_iff.2 (Or.inl hbuiltin)] at hlacks
      exact absurd hlacks (by simp)
    · exact Or.inl ⟨entry, hentry, hlacks⟩
  · rintro (⟨entry, hentry, hlacks⟩ | ⟨name, ⟨entry, hentry, hname⟩, hlacks, -⟩)
    · exact ⟨entry, hentry, Or.inr hlacks⟩
    · exact ⟨entry, hentry, Or.inl ⟨name, hname, hlacks⟩⟩

/-- A union with a transform that it carries itself. -/
def carryingUnion : Fragment where
  keywords :=
    [("anyOf", .array [.object [("type", .string "string")]]), ("transform", .array [.string "f"])]
  records := Table.ofPairs
    [("", { transforms := some (Table.ofPairs [("f", Transform.ofFunction .ok)]) })]

lemma carryingUnion_standsByItself : carryingUnion.StandsByItself where
  wellFormed := by
    simp only [carryingUnion, Fragment.json, Json.WellFormed, Json.MembersWellFormed,
      Json.AllWellFormed, Entries.Sorted, and_true]
    decide
  refFree := by decide +kernel
  compiles := exists_of_isOk (by decide +kernel)
  carries := by decide +kernel

/-- Made nullable, the union keeps the name of the transform and loses the transform. -/
theorem carryingUnion_loses_transform :
    carryingUnion.StandsByItself ∧ nullable.apply carryingUnion = .ok carryingUnion.nullable
      ∧ Validator.compile carryingUnion.nullable none = .error (.unknownTransform "f" "") := by
  have hfails : (match Validator.compile carryingUnion.nullable none with
      | .error error => decide (error = .unknownTransform "f" "")
      | .ok _ => false) = true := by
    decide +kernel
  refine ⟨carryingUnion_standsByItself, rfl, ?_⟩
  split at hfails
  · rename_i error herror
    rw [herror, of_decide_eq_true hfails]
  · simp at hfails

theorem carryingUnion_fails_over_name :
    carryingUnion.StandsByItself
      ∧ ∃ error, Validator.compile carryingUnion.nullable none = .error error
        ∧ error.IsUnknownName := by
  have hbases : ∀ base ∈ nullable.bases, base.StandsByItself := fun _ hbase =>
    absurd hbase List.not_mem_nil
  have hout : nullable.apply carryingUnion = .ok carryingUnion.nullable := rfl
  exact ⟨carryingUnion_standsByItself,
    (fails_over_name_iff carryingUnion_standsByItself hbases hout).2 (Or.inl (by decide +kernel))⟩

end Rework

end SchemaAlgebra
