import SchemaAlgebra.Proofs.Combination
import SchemaAlgebra.Proofs.Rework
import SchemaAlgebra.Proofs.WiderPlan

/-!
# Schemas that also admit `null`

Made nullable, a union with a member that names `null` is left as it is, another union gets one more
member (`Fragment.gainsNull`), and any other schema becomes a member of a union with `null`.

A union that gets a member is merged anew: its root keeps no record and no keyword that is `null`, and
references to it lead to another schema than before.  `Fragment.Widenable` says that nothing depends on
that.

* `Fragment.widens_nullable` — the union then has one more member, and all else is as it was.
* `Fragment.checkNames_nullable` — the names in it are known.
* `Fragment.compilesWith_nullable` — it compiles, as it did.
* `Fragment.accepts_orNull_iff` — a union of a schema and `null` admits `null` and what the schema does.
* `Fragment.nullable_accepts_iff` — made nullable, a schema admits `null` beside what it admitted.
* `Fragment.nullable_idempotent` — made nullable again, it is left as it is.
-/

namespace SchemaAlgebra

open Fragment (plainScope)

/-! ## Unions -/

namespace Fragment

variable {f g : Fragment} {options : Option Options} {items : List Json} {extensions : List Extension}

/-! ### Settings -/

/-- Two schemas are compiled with the same settings and classes, in the dialect of combinators, and with
the transforms configured for one of them the other is configured as well. -/
structure SharesSettings (options : Option Options) (f g : Fragment) : Prop where
  draft : (f.settings options).matcher.effectiveDraft = .draft7
  draft' : (g.settings options).matcher.effectiveDraft = .draft7
  formats : (g.settings options).matcher.enforcesFormats = (f.settings options).matcher.enforcesFormats
  extensions : Extension.resolve (g.settings options).keywords
    = Extension.resolve (f.settings options).keywords
  classes : g.registry options = f.registry options
  transforms : ∀ entry ∈ (f.settings options).transforms.entries,
    (g.settings options).transforms.contains entry.1 = true

namespace SharesSettings

variable (h : SharesSettings options f g)

include h

lemma alike (extensions : List Extension) :
    (f.matcherWith options extensions).Alike (g.matcherWith options extensions) :=
  ⟨h.formats.symm, rfl, h.classes.symm⟩

lemma build_eq (extensions : List Extension) :
    Matcher.build (g.settings options).matcher extensions (g.registry options)
      = Matcher.build (f.settings options).matcher extensions (f.registry options) := by
  funext value
  rw [Matcher.build, Matcher.build, h.draft, h.draft', h.formats, h.classes]

lemma contains {name : String} (hname : (f.settings options).transforms.contains name = true) :
    (g.settings options).transforms.contains name = true := by
  obtain ⟨entry, hentry, hkey⟩ := List.any_eq_true.1 hname
  exact of_decide_eq_true hkey ▸ h.transforms entry hentry

end SharesSettings

/-! ### One more member -/

/-- **A union that can get one more member**, without a change to anything else. -/
structure Widenable (f : Fragment) (options : Option Options) : Prop where
  /-- It does without the options attached to it. -/
  settings : SharesSettings options f f.nullable
  /-- The transforms that its root names are configured. -/
  own : ∀ name ∈ namedTransforms f.keywords,
    (f.nullable.settings options).transforms.contains name = true
  placed : ∀ entry ∈ f.records.entries, ∃ path, entry.1 = Pointer.join "" path
  /-- Merging drops no keyword, unless it is a default. -/
  kept : ∀ entry ∈ f.keywords, entry.2.isNull = true → entry.1 = "default"
  keeps : (Document.kept f.json).KeepsScope plainScope
  /-- No reference leads to the union itself, or to its list of members. -/
  references : SameReferences f.json f.nullable.json

section Gains

variable (hgains : f.gainsNull = true)

include hgains

lemma exists_union : ∃ items, f.get? "anyOf" = some (.array items) := by
  rcases f.nullable_cases with ⟨-, -, hitems⟩ | ⟨hnot, -⟩
  · exact hitems
  · simp [hnot] at hgains

lemma nullable_eq (hsorted : f.keywords.Sorted) (hitems : f.get? "anyOf" = some (.array items)) :
    f.nullable = ⟨Entries.insert "anyOf" (.array (items ++ [nullSchema])) (merged [f]).keywords,
      (merged [f]).records⟩ := by
  have hmerged : (merged [f]).get? "anyOf" = some (.array items) := by
    have hfound : Entries.lookup "anyOf" f.keywords = some (.array items) := hitems
    rw [get?, lookup_merged_keywords hsorted, hfound]
    rfl
  rcases f.nullable_cases with ⟨-, heq, -⟩ | ⟨hnot, -⟩
  · rw [heq, pushMember_eq hmerged rfl]
  · simp [hnot] at hgains

variable (hwf : f.json.WellFormed) (hitems : f.get? "anyOf" = some (.array items))

include hwf hitems

/-- **Made nullable, a union is wider** by one member, if none of its keywords but the default is
`null`. -/
lemma widens_nullable (hkept : ∀ entry ∈ f.keywords, entry.2.isNull = true → entry.1 = "default") :
    Widens f.keywords f.nullable.keywords items := by
  have hbeside : ∀ key ∉ reworded, Entries.lookup key (merged [f]).keywords
      = Entries.lookup key f.keywords := by
    intro key hkey
    rw [lookup_merged_keywords hwf.1]
    cases hargument : Entries.lookup key f.keywords with
    | none => rfl
    | some argument =>
      have hnull : argument.isNull = false := by
        refine Bool.eq_false_iff.2 fun hnull => hkey ?_
        have hdefault : key = "default" := hkept _ (Entries.mem_of_lookup hargument) hnull
        rw [hdefault]
        decide
      rw [Option.filter_some, hnull]
      rfl
  have hmerged : (Json.object (merged [f]).keywords).WellFormed := by
    refine ⟨Entries.Sorted.enter List.Pairwise.nil _, Json.membersWellFormed_iff.2 ?_⟩
    intro member hmember
    rcases Entries.mem_enter hmember with hmember | hmember
    · exact Json.membersWellFormed_iff.1 hwf.2 member (List.mem_filter.1 hmember).1
    · exact absurd hmember List.not_mem_nil
  have hunion : (Json.array (items ++ [nullSchema])).WellFormed := by
    have hitemswf := Json.membersWellFormed_iff.1 hwf.2 _ (Entries.mem_of_lookup hitems)
    refine Json.allWellFormed_iff.2 fun item hitem => ?_
    rcases List.mem_append.1 hitem with hitem | hitem
    · exact Json.allWellFormed_iff.1 hitemswf item hitem
    · rw [List.mem_singleton.1 hitem]
      decide
  rw [nullable_eq hgains hwf.1 hitems]
  exact
    { wellFormed := hwf
      wellFormed' := Json.wellFormed_insert hmerged hunion
      union := hitems
      widened := Entries.lookup_insert_self _ _ _
      default := (Entries.lookup_insert_of_ne (by decide) _ _).trans (lookup_merged_keywords hwf.1 _)
      beside := fun key hkey => by
        have hne : "anyOf" ≠ key := fun heq => hkey (heq ▸ by decide)
        exact (Entries.lookup_insert_of_ne hne _ _).trans (hbeside key hkey) }

/-- The records beneath its keywords go along. -/
lemma recordAt?_nullable {keyword : String} {argument : Json}
    (hargument : Entries.lookup keyword f.keywords = some argument) (hnull : argument.isNull = false)
    (rest : List String) :
    f.nullable.recordAt? (Pointer.join "" (keyword :: rest))
      = f.recordAt? (Pointer.join "" (keyword :: rest)) := by
  have hmem := Entries.mem_of_lookup hargument
  have hkey : keyword ∈ Entries.keys (Entries.trim f.keywords) :=
    List.mem_map.2 ⟨_, List.mem_filter.2 ⟨hmem, by rw [hnull]; rfl⟩, rfl⟩
  rw [nullable_eq hgains hwf.1 hitems]
  exact (lookup_merged f _).trans (if_pos ⟨keyword, hkey, rfl⟩)

end Gains

/-! ### Names -/

/-- The names of the transforms of a schema are known elsewhere if they were, and are known there. -/
lemma checkTransforms_of {settings settings' : Options} {pointer : Pointer}
    {keywords others : Entries Json}
    (h : f.checkTransforms settings pointer keywords = .ok ())
    (hsame : Entries.lookup "transform" others = Entries.lookup "transform" keywords)
    (hknown : ∀ name ∈ namedTransforms keywords, g.knowsTransform settings' pointer name = true) :
    g.checkTransforms settings' pointer others = .ok () := by
  rw [checkTransforms, hsame]
  cases hargument : Entries.lookup "transform" keywords with
  | none => rfl
  | some argument =>
    obtain ⟨names, hnames, -⟩ := transforms_of_checkTransforms h hargument
    have hfind : (names.find? fun name => !g.knowsTransform settings' pointer name) = none := by
      refine List.find?_eq_none.2 fun name hname => ?_
      rw [hknown name (by rw [namedTransforms, hargument, Option.bind_some, hnames]; exact hname)]
      decide
    dsimp only
    rw [hnames]
    dsimp only
    rw [hfind]

section Names

variable (h : f.Widenable options) (hgains : f.gainsNull = true) (hwf : f.json.WellFormed)

include h hgains hwf

/-- The subschemas of the wider union are the union, the new member, and those that there were. -/
lemma holds_nullable {path : List String} {inner : Entries Json}
    (hholds : f.nullable.json.Holds path inner) : path = [] ∧ inner = f.nullable.keywords
      ∨ inner = (ofKind .null).keywords
      ∨ f.json.Holds path inner ∧ ∃ keyword argument rest,
        Entries.lookup keyword f.keywords = some argument ∧ argument.isNull = false
          ∧ path = keyword :: rest := by
  obtain ⟨items, hitems⟩ := exists_union hgains
  have hwidens := widens_nullable hgains hwf hitems h.kept
  rcases hholds.cases_keyword with hroot | ⟨keyword, argument, tokens, value, rest, hargument, hinside,
    hinner, rfl⟩
  · exact Or.inl hroot
  · obtain ⟨more, rfl⟩ : ∃ more, tokens = keyword :: more := Json.exists_tail_of_mem_insideOf hinside
    by_cases hkeyword : keyword = "anyOf"
    · subst hkeyword
      obtain rfl := Option.some.inj (hwidens.widened.symm.trans hargument)
      obtain ⟨index, hvalue, htokens⟩ := (Json.insideOf_list (by decide) _).1 hinside
      rcases Nat.lt_or_ge index items.length with hlt | hge
      · rw [List.getElem?_append_left hlt] at hvalue
        refine Or.inr (Or.inr ⟨?_, "anyOf", _, more ++ rest, hitems, rfl, rfl⟩)
        exact .of_keyword hitems ((Json.insideOf_list (by decide) _).2 ⟨index, hvalue, htokens⟩) hinner
      · rw [List.getElem?_append_right hge, List.getElem?_singleton] at hvalue
        obtain rfl := Option.some.inj (Option.ite_none_right_eq_some.1 hvalue).2
        refine Or.inr (Or.inl ?_)
        rcases hinner.cases_keyword with ⟨-, hinner⟩ | ⟨other, argument, _, _, _, hother, hmem, -, -⟩
        · exact hinner
        · obtain ⟨-, rfl⟩ := Prod.mk.inj (List.mem_singleton.1 (Entries.mem_of_lookup hother))
          simp [Json.insideOf] at hmem
    · have hold := hwidens.lookup_of_lookup hkeyword hargument
      have hnull : argument.isNull = false := by
        cases argument with
        | null => exact absurd hinside List.not_mem_nil
        | _ => rfl
      exact Or.inr (Or.inr
        ⟨.of_keyword hold hinside hinner, keyword, argument, more ++ rest, hold, hnull, rfl⟩)

/-- Transforms that were known beneath the root are known. -/
lemma knowsTransform_nullable {keyword name : String} {argument : Json} {rest : List String}
    (hargument : Entries.lookup keyword f.keywords = some argument) (hnull : argument.isNull = false)
    (hknown : f.knowsTransform (f.settings options) (Pointer.join "" (keyword :: rest)) name = true) :
    f.nullable.knowsTransform (f.nullable.settings options) (Pointer.join "" (keyword :: rest)) name
      = true := by
  obtain ⟨items, hitems⟩ := exists_union hgains
  rw [knowsTransform, Bool.or_eq_true] at hknown ⊢
  rw [recordAt?_nullable hgains hwf hitems hargument hnull]
  exact hknown.imp h.settings.contains id

/-- **The names** in the wider union are known as they were. -/
lemma checkNames_nullable
    (hnames : f.checkNames (f.settings options) (f.registry options) = .ok ()) :
    f.nullable.checkNames (f.nullable.settings options) (f.nullable.registry options) = .ok () := by
  obtain ⟨items, hitems⟩ := exists_union hgains
  have hwidens := widens_nullable hgains hwf hitems h.kept
  rw [h.settings.classes]
  rcases forM_cases (f.nullable.checkAt (f.nullable.settings options) (f.registry options))
    f.nullable.json.subschemas with ⟨hok, -⟩ | ⟨⟨pointer, inner⟩, hmem, error, hfails, -⟩
  · exact hok
  · exfalso
    obtain ⟨path, hholds, hpointer⟩ := Json.mem_subschemas.1 hmem
    obtain rfl : pointer = Pointer.join "" path := hpointer
    have hok : checkClasses (f.registry options) (Pointer.join "" path) inner = .ok ()
        ∧ f.nullable.checkTransforms (f.nullable.settings options) (Pointer.join "" path) inner
          = .ok () := by
      rcases holds_nullable h hgains hwf hholds with ⟨rfl, rfl⟩ | rfl | ⟨hold, keyword, argument, rest,
        hargument, hnull, rfl⟩
      · obtain ⟨hclasses, htransforms⟩ := checked_of_checkNames hnames
          (show f.json.Holds [] f.keywords from .self)
        refine ⟨?_, checkTransforms_of htransforms (hwidens.beside _ (by decide)) fun name hname => ?_⟩
        · rw [checkClasses, hwidens.beside _ (by decide)]
          exact hclasses
        · rw [knowsTransform, h.own name hname, Bool.true_or]
      · exact ⟨rfl, rfl⟩
      · obtain ⟨hclasses, htransforms⟩ := checked_of_checkNames hnames hold
        exact ⟨hclasses, checkTransforms_of htransforms rfl fun name hname =>
          knowsTransform_nullable h hgains hwf hargument hnull
            (known_of_checkTransforms htransforms hname)⟩
    have hpasses : f.nullable.checkAt (f.nullable.settings options) (f.registry options)
        (Pointer.join "" path, inner) = .ok () := bind_eq_ok.2 ⟨(), hok⟩
    rw [hpasses] at hfails
    simp at hfails

end Names

/-! ### Compilation -/

section Compiles

variable (h : f.Widenable options) (hgains : f.gainsNull = true) (hwf : f.json.WellFormed)

include h hgains hwf

lemma knowsTransform_of_stays {pointer : Pointer} {name : String} {inner : Entries Json}
    (hstays : Widens.Stays f.keywords f.nullable.keywords pointer)
    (hkeywords : Outline.keywordsAt? f.json pointer = some inner)
    (hknown : f.knowsTransform (f.settings options) pointer name = true) :
    f.nullable.knowsTransform (f.nullable.settings options) pointer name = true := by
  obtain ⟨items, hitems⟩ := exists_union hgains
  have hwidens := widens_nullable hgains hwf hitems h.kept
  by_cases hconfigured : (f.settings options).transforms.contains name = true
  · rw [knowsTransform, h.settings.contains hconfigured, Bool.true_or]
  · -- the node carries the transform, so its pointer is that of a record
    have hcarried := hknown
    rw [knowsTransform, Bool.or_eq_true, or_iff_right hconfigured, Option.any_eq_true] at hcarried
    obtain ⟨table, htable, -⟩ := hcarried
    obtain ⟨record, hrecord, -⟩ := Option.bind_eq_some_iff.1 htable
    obtain ⟨path, rfl⟩ := h.placed _ (Entries.mem_of_lookup hrecord)
    have hresolve := Outline.resolve?_of_keywordsAt? hkeywords
    cases path with
    | nil => exact absurd rfl (hwidens.ne_root_of_stays hstays)
    | cons keyword rest =>
      rw [Json.resolve?_join] at hresolve
      have hwalk : (Json.object f.keywords).walk? (keyword :: rest) = some (.object inner) := hresolve
      rw [Json.walk?_cons] at hwalk
      obtain ⟨argument, hargument, hrest⟩ := Option.bind_eq_some_iff.1 hwalk
      have hnull : argument.isNull = false := by
        cases argument with
        | null => cases rest <;> simp [Json.walk?, Json.step?] at hrest
        | _ => rfl
      exact knowsTransform_nullable h hgains hwf hargument hnull hknown

/-- The transforms of a node that is where it was are found. -/
lemma exists_chainAt_of_stays {pointer : Pointer}
    (hstays : Widens.Stays f.keywords f.nullable.keywords pointer)
    (hchain : ∃ chain, Plan.chainAt f (f.settings options) f.json pointer = .ok chain) :
    ∃ chain, Plan.chainAt f.nullable (f.nullable.settings options) f.nullable.json pointer
      = .ok chain := by
  rw [Plan.exists_chainAt_iff] at hchain ⊢
  intro inner hinner
  have hkeywords : Outline.keywordsAt? f.json pointer = some inner :=
    hstays.keywordsAt?_eq.symm.trans hinner
  obtain ⟨hplaced, hresolves⟩ := hchain inner hkeywords
  refine ⟨hplaced, fun names hnames => Plan.exists_resolveChain_iff.2 fun name hname => ?_⟩
  exact knowsTransform_of_stays h hgains hwf hstays hkeywords
    (Plan.exists_resolveChain_iff.1 (hresolves names hnames) name hname)

/-- So are those of the root. -/
lemma exists_chainAt_root
    (hnames : f.nullable.checkNames (f.nullable.settings options) (f.nullable.registry options) = .ok ())
    (hchain : ∃ chain, Plan.chainAt f (f.settings options) f.json "" = .ok chain) :
    ∃ chain, Plan.chainAt f.nullable (f.nullable.settings options) f.nullable.json "" = .ok chain := by
  obtain ⟨items, hitems⟩ := exists_union hgains
  have hwidens := widens_nullable hgains hwf hitems h.kept
  obtain ⟨-, htransforms⟩ := checked_of_checkNames hnames
    (show f.nullable.json.Holds [] f.nullable.keywords from .self)
  rw [Plan.exists_chainAt_iff] at hchain ⊢
  intro inner hinner
  obtain rfl : f.nullable.keywords = inner := Option.some.inj hinner
  refine ⟨(hwidens.misplaced?_eq "").trans (hchain f.keywords rfl).1, fun items hitems => ?_⟩
  obtain ⟨names, hnamed, hknown⟩ := transforms_of_checkTransforms htransforms hitems
  exact Plan.resolveChain_ok hnamed hknown

/-- **The wider union has a plan**, as the union has. -/
lemma exists_plan_nullable {build : Plan.MatcherBuilder} {items : List Json}
    (hitems : f.get? "anyOf" = some (.array items))
    (hnames : f.nullable.checkNames (f.nullable.settings options) (f.nullable.registry options) = .ok ())
    (hmember : ∃ matcher,
      build (Plan.branchDocument f.nullable.json (Widens.newMember items)) = .ok matcher)
    (hplan : ∃ plan, Plan.compile build f (f.settings options) = .ok plan) :
    ∃ plan, Plan.compile build f.nullable (f.nullable.settings options) = .ok plan := by
  have hwidens := widens_nullable hgains hwf hitems h.kept
  have hnodes := Plan.exists_plan_iff.1 hplan
  refine Plan.exists_plan_iff.2 fun pointer hpointer => ?_
  rcases hwidens.nodes_cases h.references hpointer with rfl | rfl | hstays
  · obtain ⟨hchain, hbuildable⟩ := hnodes "" Widens.root_mem_nodes
    exact ⟨exists_chainAt_root h hgains hwf hnames hchain,
      hwidens.buildable_root h.references hbuildable hmember⟩
  · exact ⟨hwidens.exists_chainAt_newMember _ _, hwidens.buildable_newMember⟩
  · obtain ⟨hchain, hbuildable⟩ := hnodes pointer hstays.mem
    exact ⟨exists_chainAt_of_stays h hgains hwf hstays hchain,
      hstays.buildable h.references hwidens.lookup_shared hbuildable⟩

/-- The matchers of the union and of the wider union. -/
lemma widened_nullable {items : List Json} (hitems : f.get? "anyOf" = some (.array items))
    (hcompiles : f.CompilesWith options extensions) :
    (f.matcherWith options extensions).Widened (f.nullable.matcherWith options extensions) f.keywords
      f.nullable.keywords items where
  widens := widens_nullable hgains hwf hitems h.kept
  alike := h.settings.alike extensions
  inScope := ⟨by rw [matcherWith, h.settings.draft]; rfl, hwf, h.keeps⟩
  document' := by rw [matcherWith, h.settings.draft']; rfl
  references := h.references
  check := hcompiles.check

/-- **The wider union compiles**, as the union does. -/
theorem compilesWith_nullable (hcompiles : f.CompilesWith options extensions) :
    f.nullable.CompilesWith options extensions := by
  obtain ⟨items, hitems⟩ := exists_union hgains
  have hwidened := widened_nullable h hgains hwf hitems hcompiles
  have hnames := checkNames_nullable h hgains hwf hcompiles.names
  have hbuild : Matcher.build (f.nullable.settings options).matcher extensions
      (f.nullable.registry options) f.nullable.json = .ok (f.nullable.matcherWith options extensions) :=
    Plan.build_eq_ok_iff.2 ⟨rfl, hwidened.check'⟩
  refine ⟨h.settings.extensions.trans hcompiles.resolve, hnames, hwidened.check', ?_⟩
  refine exists_plan_nullable h hgains hwf hitems hnames (hwidened.exists_build_newMember hbuild) ?_
  rw [h.settings.build_eq]
  exact hcompiles.plan

end Compiles

/-! ## Other schemas -/

lemma composedOf_null : (ofKind .null).ComposedOf [] :=
  Combination.composedOf_type (by decide)

/-- The schema of `null` is a part wherever the dialect is that of combinators. -/
lemma isPart_null (hdraft : (Options.merged none options).matcher.effectiveDraft = .draft7)
    (hresolve : Extension.resolve (Options.merged none options).keywords = .ok extensions) :
    (ofKind .null).IsPart options :=
  composedOf_null.isPart (by simp) (by simp) hdraft hresolve

lemma accepts_null_iff (hdraft : (Options.merged none options).matcher.effectiveDraft = .draft7)
    (hresolve : Extension.resolve (Options.merged none options).keywords = .ok extensions)
    (value : Json) : (ofKind .null).Accepts options value ↔ value = .null := by
  have hpart := isPart_null hdraft hresolve
  obtain ⟨others, hcompiles⟩ := hpart.exists_compilesWith
  have hplain := hpart.ofPlain others
  rw [accepts_iff_of_compilesWith hcompiles, Matcher.accepts, Matcher.violations, Matcher.violationsOf,
    List.isEmpty_iff, Matcher.budget, hplain.document, Document.root_ofJson, composedOf_null.kept_eq,
    Plan.scope_ofJson]
  exact Matcher.Widened.judge_nullSchema

section Wrapped

variable (hpart : f.IsPart options) (hretains : Retains options (anyOf [f, ofKind .null]) f)
  (hdraft : ((anyOf [f, ofKind .null]).settings options).matcher.effectiveDraft = .draft7)

include hpart hretains hdraft

/-- **A union of a schema and `null`** compiles, and admits `null` and what the schema does. -/
theorem accepts_orNull_iff (value : Json) :
    (∃ validator, Validator.compile (anyOf [f, ofKind .null]) options = .ok validator)
      ∧ ((anyOf [f, ofKind .null]).Accepts options value ↔ value = .null ∨ f.Accepts options value) := by
  have hproper : (Combination.anyOf [f, ofKind .null]).Proper := by simp [Combination.Proper]
  have hcomposed : (anyOf [f, ofKind .null]).ComposedOf [f, ofKind .null] :=
    Combination.composedOf_anyOf (by simp) (List.Subset.refl _) (by
      rintro part (_ | ⟨_, _ | ⟨_, ⟨⟩⟩⟩)
      · exact ⟨hpart.wellFormed, hpart.placed⟩
      · exact ⟨composedOf_null.wellFormed, composedOf_null.placed⟩)
  have hoptions : (anyOf [f, ofKind .null]).options? = none := by
    rw [options?, hcomposed.bare]
    rfl
  have hsettings : (anyOf [f, ofKind .null]).settings options = Options.merged none options := by
    rw [settings, hoptions]
  obtain ⟨extensions, hcompiles⟩ := hpart.exists_compilesWith
  have hresolve : Extension.resolve ((anyOf [f, ofKind .null]).settings options).keywords
      = .ok extensions := hretains.extensions.symm.trans hcompiles.resolve
  have hdraft' := hsettings ▸ hdraft
  have hresolve' := hsettings ▸ hresolve
  have hnameless : ∀ path keywords, (ofKind .null).json.Holds path keywords →
      namedClasses keywords = [] ∧ namedTransforms keywords = [] :=
    Json.forall_holds_iff.2 (by decide)
  have hparts : ∀ part ∈ [f, ofKind .null], part.IsPart options := by
    rintro part (_ | ⟨_, _ | ⟨_, ⟨⟩⟩⟩)
    · exact hpart
    · exact isPart_null hdraft' hresolve'
  have hretained : ∀ part ∈ [f, ofKind .null], Retains options (anyOf [f, ofKind .null]) part := by
    rintro part (_ | ⟨_, _ | ⟨_, ⟨⟩⟩⟩)
    · exact hretains
    · exact .of_nameless rfl hoptions hnameless
  refine ⟨(hcomposed.isPart hparts hretained hdraft hresolve).compiles, ?_⟩
  obtain ⟨judge, hjudge, haccepts⟩ := hcomposed.accepts_iff_judge hparts hretained hdraft
    (fun part hmem => Combination.exists_stands hproper hmem) hresolve value
  refine haccepts.trans ((Combination.passes_anyOf hjudge).trans ?_)
  rw [Combination.Means, List.exists_mem_cons_iff, List.exists_mem_cons_iff,
    accepts_null_iff hdraft' hresolve']
  simp [or_comm]

end Wrapped

/-! ## The verdict -/

lemma accepts_iff_of_compile {validator : Validator} {value : Json}
    (h : Validator.compile f options = .ok validator) :
    f.Accepts options value ↔ validator.matcher.accepts value = true := by
  rw [accepts_iff, h]
  simp [Except.toOption]

/-- Whether a schema is a union with a member that names `null` among its types. -/
def namesNull (f : Fragment) : Bool :=
  match f.get? "anyOf" with
  | some (.array items) => items.any admitsNull
  | _ => false

lemma nullable_of_namesNull (h : f.namesNull = true) : f.nullable = f := by
  obtain ⟨items, hitems, hnames⟩ : ∃ items, f.get? "anyOf" = some (.array items)
      ∧ items.any admitsNull = true := by
    unfold namesNull at h
    split at h
    · exact ⟨_, by assumption, h⟩
    · simp at h
  simp only [nullable, hitems, hnames, if_true]

lemma nullable_of_neither (hnames : f.namesNull = false) (hgains : f.gainsNull = false) :
    f.nullable = anyOf [f, ofKind .null] := by
  unfold nullable
  split
  · rename_i items hitems
    simp only [namesNull, gainsNull, hitems, Bool.not_eq_false'] at hnames hgains
    exact absurd (hnames.symm.trans hgains) (by decide)
  · rfl

/-! ### Twice -/

lemma namesNull_of_mem {member : Json} (hitems : f.get? "anyOf" = some (.array items))
    (hmember : member ∈ items) (hadmits : admitsNull member = true) : f.namesNull = true := by
  simp only [namesNull, hitems]
  exact List.any_eq_true.2 ⟨member, hmember, hadmits⟩

/-- A member that is appended is in the list then, also if there was none. -/
lemma exists_get?_pushMember (f member : Fragment) (keyword : String) :
    ∃ items, (f.pushMember keyword member).get? keyword = some (.array items) ∧ member.json ∈ items := by
  unfold pushMember
  split
  · exact ⟨_, Entries.lookup_insert_self _ _ _, List.mem_append_right _ (List.mem_singleton_self _)⟩
  · exact ⟨_, Entries.lookup_insert_self _ _ _, List.mem_singleton_self _⟩

/-- **What is made nullable names `null`**, in whichever way it was made so. -/
lemma namesNull_nullable (f : Fragment) : f.nullable.namesNull = true := by
  have hnull : admitsNull (ofKind .null).json = true := by decide
  by_cases hnames : f.namesNull = true
  · rwa [nullable_of_namesNull hnames]
  · rcases nullable_cases f with ⟨-, hpushed, -⟩ | ⟨hgains, -⟩
    · rw [hpushed]
      obtain ⟨items, hitems, hmember⟩ := exists_get?_pushMember (merged [f]) (ofKind .null) "anyOf"
      exact namesNull_of_mem hitems hmember hnull
    · rw [nullable_of_neither (Bool.eq_false_iff.2 hnames) hgains]
      have hmember : (ofKind .null).json ∈ [f.json, (ofKind .null).json] :=
        List.mem_cons_of_mem _ (List.mem_singleton_self _)
      exact namesNull_of_mem (Entries.lookup_insert_self _ _ _) hmember hnull

/-- **Making a schema nullable again changes nothing**, neither its document nor its records, whatever it
was at first.  The schemas that are left as they are even the first time are the unions that name `null`. -/
theorem nullable_idempotent (schema : Option Fragment) :
    (schema.getD empty).nullable.nullable = (schema.getD empty).nullable
      ∧ ∀ f : Fragment, f.nullable = f ↔ f.namesNull = true := by
  refine ⟨nullable_of_namesNull (namesNull_nullable _), fun f => ⟨fun h => ?_, nullable_of_namesNull⟩⟩
  rw [← h]
  exact namesNull_nullable f

/-! ### Once -/

/-- **Made nullable, a schema admits one value more**, which is `null`: a union that names `null` if it
admits it already, another union if it can get one more member and has nothing against `null` beside,
and any other schema if it can be part of a larger one. -/
theorem nullable_accepts_iff (f : Fragment) (options : Option Options) (validator : Validator)
    (hcompiles : Validator.compile f options = .ok validator) (hwf : f.json.WellFormed)
    (hnamed : f.namesNull = true → validator.matcher.accepts .null = true)
    (hunion : f.gainsNull = true → f.Widenable options
      ∧ validator.matcher.Straight validator.matcher.start
      ∧ ∀ violation ∈ validator.matcher.violations .null, violation.schemaRoute = ["anyOf"])
    (hother : f.namesNull = false → f.gainsNull = false →
      f.IsPart options ∧ Retains options f.nullable f
        ∧ (f.nullable.settings options).matcher.effectiveDraft = .draft7) :
    ∃ other, Validator.compile f.nullable options = .ok other
      ∧ ∀ value, other.matcher.accepts value = true
        ↔ value = .null ∨ validator.matcher.accepts value = true := by
  obtain ⟨extensions, hcompilesWith, hmatcher, -⟩ := compiled_parts hcompiles
  by_cases hnames : f.namesNull = true
  · -- nothing changes
    rw [nullable_of_namesNull hnames]
    refine ⟨validator, hcompiles, fun value => ⟨Or.inr, ?_⟩⟩
    rintro (rfl | haccepts)
    · exact hnamed hnames
    · exact haccepts
  · by_cases hgains : f.gainsNull = true
    · -- one more member of the union
      obtain ⟨hwidenable, hstraight, hnull⟩ := hunion hgains
      obtain ⟨items, hitems⟩ := exists_union hgains
      have hwidened := widened_nullable hwidenable hgains hwf hitems hcompilesWith
      obtain ⟨other, hother, hmatcher'⟩ := exists_compile_iff.2
        ⟨extensions, compilesWith_nullable hwidenable hgains hwf hcompilesWith, rfl⟩
      refine ⟨other, hother, fun value => ?_⟩
      rw [hmatcher] at hstraight hnull ⊢
      rw [hmatcher']
      exact hwidened.accepts_iff hstraight hnull value
    · -- a union of the schema and `null`
      simp only [Bool.not_eq_true] at hnames hgains
      obtain ⟨hpart, hretains, hdraft⟩ := hother hnames hgains
      rw [nullable_of_neither hnames hgains] at hretains hdraft ⊢
      obtain ⟨⟨other, hother⟩, -⟩ := accepts_orNull_iff hpart hretains hdraft .null
      refine ⟨other, hother, fun value => ?_⟩
      rw [← accepts_iff_of_compile hother, ← accepts_iff_of_compile hcompiles]
      exact (accepts_orNull_iff hpart hretains hdraft value).2

/-- A reference to the definition of nodes. -/
def nodeReference : Json :=
  .object [("$ref", .string "#/definitions/node")]

/-- A node may lead to a further one. -/
def nodeDefinition : Json :=
  .object [("properties", .object [("next", nodeReference)]), ("type", .string "object")]

/-- A text or a node, by default `null`; the definition of nodes stands beside. -/
def textOrNode : Fragment :=
  { keywords := [("anyOf", .array [(ofKind .string).json, nodeReference]), ("default", .null),
      ("definitions", .object [("node", nodeDefinition)])] }

lemma textOrNode_widenable : textOrNode.Widenable none where
  settings :=
    { draft := rfl
      draft' := rfl
      formats := rfl
      extensions := rfl
      classes := rfl
      transforms := by decide }
  own := by decide
  placed := fun _ hentry => absurd hentry List.not_mem_nil
  kept := by decide
  keeps := by decide +kernel
  references := by decide +kernel

/-- The places that matching comes to; at one value, it comes from each to earlier ones only. -/
def textOrNodePlaces : List Matcher.Place :=
  [nodeDefinition, nodeReference, (ofKind .string).json, textOrNode.json].map fun schema =>
    (plainScope, schema)

lemma textOrNode_straight : (textOrNode.matcherWith none [.typeOf]).Straight
    (textOrNode.matcherWith none [.typeOf]).start := by
  have hlisted : (textOrNode.matcherWith none [.typeOf]).Straight (plainScope, textOrNode.json) :=
    Matcher.straight_of_listed (show _ ∈ textOrNodePlaces by decide +kernel) (by decide +kernel)
      (by decide +kernel)
  exact hlisted

/-- The union gets one more member, and a text becomes one of two. -/
theorem textOrNode_admits_null :
    (∃ validator other, Validator.compile textOrNode none = .ok validator
        ∧ Validator.compile textOrNode.nullable none = .ok other
        ∧ ∀ value, other.matcher.accepts value = true
          ↔ value = .null ∨ validator.matcher.accepts value = true)
      ∧ ∃ validator other, Validator.compile (ofKind .string) none = .ok validator
        ∧ Validator.compile (ofKind .string).nullable none = .ok other
        ∧ ∀ value, other.matcher.accepts value = true
          ↔ value = .null ∨ validator.matcher.accepts value = true := by
  constructor
  · obtain ⟨validator, hcompiles⟩ : ∃ validator, Validator.compile textOrNode none = .ok validator :=
      exists_of_isOk (by decide +kernel)
    obtain ⟨extensions, hwith, hmatcher, -⟩ := compiled_parts hcompiles
    obtain rfl : [.typeOf] = extensions := Except.ok.inj hwith.resolve
    have hroutes : ∀ violation ∈ (textOrNode.matcherWith none [.typeOf]).violations .null,
        violation.schemaRoute = ["anyOf"] := by
      decide +kernel
    have hgains : textOrNode.gainsNull = true := by decide
    have hunnamed : textOrNode.namesNull = false := by decide
    obtain ⟨other, hother, haccepts⟩ := nullable_accepts_iff textOrNode none validator hcompiles
      (by decide) (by simp [hunnamed])
      (fun _ => ⟨textOrNode_widenable, hmatcher ▸ textOrNode_straight, hmatcher ▸ hroutes⟩)
      (by simp [hgains])
    exact ⟨validator, other, hcompiles, hother, haccepts⟩
  · have hpart : (ofKind .string).IsPart none := by decide +kernel
    obtain ⟨validator, hcompiles⟩ := hpart.compiles
    have hnameless : ∀ path keywords, (ofKind .string).json.Holds path keywords →
        namedClasses keywords = [] ∧ namedTransforms keywords = [] :=
      Json.forall_holds_iff.2 (by decide)
    have hgains : (ofKind .string).gainsNull = false := by decide
    have hunnamed : (ofKind .string).namesNull = false := by decide
    obtain ⟨other, hother, haccepts⟩ := nullable_accepts_iff (ofKind .string) none validator hcompiles
      hpart.wellFormed (by simp [hunnamed]) (by simp [hgains])
      (fun _ _ => ⟨hpart, .of_nameless rfl rfl hnameless, rfl⟩)
    exact ⟨validator, other, hcompiles, hother, haccepts⟩

/-- A text, by the reference to its definition. -/
def textByReference : Fragment :=
  { keywords := [("$ref", .string "#/definitions/text"),
      ("definitions", .object [("text", (ofKind .string).json)])] }

/-- A union with a member that names `null` and admits nothing. -/
def unionNamingNull : Fragment :=
  { keywords := [("anyOf", .array [.object [("const", .bool true), ("type", .string "null")]])] }

/-- A union of texts, beside which `null` is asked for. -/
def textConfinedToNull : Fragment :=
  { keywords := [("anyOf", .array [(ofKind .string).json]), ("const", .null)] }

/-- A union of texts, beside which a text is asked for. -/
def textConfinedToText : Fragment :=
  { keywords := [("anyOf", .array [(ofKind .string).json]), ("type", .string "string")] }

/-- A union that the objects in it refer to. -/
def textOrNested : Fragment :=
  { keywords := [("anyOf", .array [(ofKind .string).json,
      .object [("properties", .object [("next", .object [("$ref", .string "#")])]),
        ("type", .string "object")]])] }

/-- A number, by a keyword that the dialect announced does not have.  At the root the dialect is given,
and what is announced there does not count. -/
def numberAnnounced : Fragment :=
  { keywords := [("$schema", .string "http://json-schema.org/draft-04/schema#"),
      ("const", .number (.int 1))] }

/-- A union of which the member that is rewritten is the resource that a definition refers to. -/
def unionOfResource : Fragment where
  keywords :=
    [("anyOf", .array [.object [("$id", .string "http://resource/"), ("transform", .array [.string "f"])]]),
      ("definitions", .object [("d", .object [("$ref", .string "http://resource/")])])]
  records := Table.ofPairs
    [("/anyOf/0", { transforms := some (Table.ofPairs [("f", Transform.ofFunction .ok)]) })]

/-- If a schema compiles, then made nullable it does too, and admits a value if it did, or if the value is
`null`. -/
def NullableAt (f : Fragment) (value : Json) : Prop :=
  ∀ validator, Validator.compile f none = .ok validator →
    ∃ other, Validator.compile f.nullable none = .ok other
      ∧ (other.matcher.accepts value = true ↔ value = .null ∨ validator.matcher.accepts value = true)

/-- Whether a schema compiles, but made nullable does not, or judges a value otherwise than it should. -/
def differsNullable (f : Fragment) (value : Json) : Bool :=
  match Validator.compile f none, Validator.compile f.nullable none with
  | .ok validator, .ok other =>
    other.matcher.accepts value != (value == .null || validator.matcher.accepts value)
  | .ok _, .error _ => true
  | .error _, _ => false

lemma not_nullableAt {value : Json} (h : f.differsNullable value = true) : ¬ f.NullableAt value := by
  intro hnullable
  cases hvalidator : Validator.compile f none with
  | error error => simp [differsNullable, hvalidator] at h
  | ok validator =>
    obtain ⟨other, hother, hiff⟩ := hnullable validator hvalidator
    have hne : (other.matcher.accepts value != (value == .null || validator.matcher.accepts value))
        = true := by
      simpa only [differsNullable, hvalidator, hother] using h
    refine bne_iff_ne.1 hne (Bool.eq_iff_iff.2 ?_)
    rw [Bool.or_eq_true, beq_iff_eq]
    exact hiff

/-- A reference is read against the root of the document, which is another one once the schema is a
member of a union; a member that names `null` may not admit it; what is asked for beside a union stays
in force, unless it is `null`, which is dropped; a reference to the union leads to the one with the new
member; what the root carries does not go along; a dialect that is announced counts for a member, as it
does not for the root; and a definition may refer to a member by its identifier, which is not there in
the document made of the new member. -/
theorem nullable_not_exact :
    ¬ textByReference.NullableAt .null ∧ ¬ unionNamingNull.NullableAt .null
      ∧ ¬ textConfinedToText.NullableAt .null ∧ ¬ textConfinedToNull.NullableAt (.string "a text")
      ∧ ¬ textOrNested.NullableAt (.object [("next", .null)])
      ∧ ¬ Rework.carryingUnion.NullableAt .null
      ∧ ¬ numberAnnounced.NullableAt (.number (.int 2)) ∧ ¬ unionOfResource.NullableAt .null := by
  refine ⟨not_nullableAt ?_, not_nullableAt ?_, not_nullableAt ?_, not_nullableAt ?_, not_nullableAt ?_,
    not_nullableAt ?_, not_nullableAt ?_, not_nullableAt ?_⟩
  all_goals decide +kernel

end Fragment

end SchemaAlgebra
