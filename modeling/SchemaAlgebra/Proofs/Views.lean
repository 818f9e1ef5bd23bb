import SchemaAlgebra.Proofs.Members

/-!
# Views of views

A partial view leaves of a schema of objects the required properties that it keeps, and of a union the
views of its members, each of which keeps its own tag as well.

* `Fragment.partialView_eq_ok_iff` — which schemas have views, and what they are.
* `Fragment.partialView_keeps` — a view is a schema of the same kind, with the same record.
* **`Fragment.view_of_view`** — a view of a view keeps what both keep, and succeeds if some view does.
-/

namespace SchemaAlgebra

/-! ## Traversals that may fail -/

section

variable {ε α β : Type} {f g : α → Except ε β} {items : List α}

/-- Of two traversals one after the other, each element takes both steps. -/
lemma mapM_mapM {γ : Type} {f : α → Except ε β} {g : β → Except ε γ} {h : α → Except ε γ}
    {items : List α} {results : List β} (hresults : items.mapM f = .ok results)
    (hstep : ∀ a ∈ items, ∀ b, f a = .ok b → ∃ c, g b = .ok c ∧ h a = .ok c) :
    ∃ finals, results.mapM g = .ok finals ∧ items.mapM h = .ok finals := by
  replace hresults := mapM_forall₂ hresults
  induction hresults with
  | nil => exact ⟨[], rfl, rfl⟩
  | cons hfirst _ ih =>
    obtain ⟨hhere, hthere⟩ := List.forall_mem_cons.1 hstep
    obtain ⟨final, hnext, hboth⟩ := hhere _ hfirst
    obtain ⟨finals, hnexts, hboths⟩ := ih hthere
    refine ⟨final :: finals, ?_, ?_⟩
    · rw [List.mapM_cons, hnext, hnexts]
      rfl
    · rw [List.mapM_cons, hboth, hboths]
      rfl

/-- Traversals fail alike if they fail alike with every element. -/
lemma mapM_eq_error_congr (h : ∀ a ∈ items, ∀ error, f a = .error error ↔ g a = .error error)
    (error : ε) : items.mapM f = .error error ↔ items.mapM g = .error error := by
  induction items with
  | nil => exact Iff.rfl
  | cons a items ih =>
    obtain ⟨hfirst, hrest⟩ := List.forall_mem_cons.1 h
    rw [List.mapM_cons, List.mapM_cons]
    cases hf : f a with
    | error failure => rw [(hfirst failure).1 hf]; rfl
    | ok b =>
      cases hg : g a with
      | error failure => rw [(hfirst failure).2 hg] at hf; simp at hf
      | ok c =>
        have hmore := ih hrest
        cases hfs : items.mapM f <;> cases hgs : items.mapM g <;>
          simp_all [bind, Except.bind, pure, Except.pure]

lemma map_eq_ok {k : α → β} {x : Except ε α} {b : β} :
    x.map k = .ok b ↔ ∃ a, x = .ok a ∧ k a = b := by
  cases x <;> simp [Except.map]

lemma map_eq_error {k : α → β} {x : Except ε α} {error : ε} :
    x.map k = .error error ↔ x = .error error := by
  cases x <;> simp [Except.map]

/-- Elements and results may be changed together. -/
lemma mapM_map_comm {γ δ : Type} {f : α → Except ε β} {g : γ → Except ε δ} {k : α → γ} {l : β → δ}
    {items : List α} (h : ∀ a ∈ items, g (k a) = (f a).map l) :
    (items.map k).mapM g = (items.mapM f).map (List.map l) := by
  induction items with
  | nil => rfl
  | cons a items ih =>
    obtain ⟨hfirst, hrest⟩ := List.forall_mem_cons.1 h
    rw [List.map_cons, List.mapM_cons, List.mapM_cons, hfirst, ih hrest]
    cases f a with
    | error => rfl
    | ok b => cases items.mapM f <;> rfl

end

namespace Fragment

variable {f view : Fragment} {keyword : String} {members : List Fragment} {required : List Json}
  {keep others : List String}

/-- The names that a view keeps required: those asked for, and the tag. -/
def kept (f : Fragment) (keep : List String) : List String :=
  keep ++ (f.unionTag?.map UnionTag.property).toList

/-- Views, by what kind of schema they are of. -/
lemma partialView_eq (f : Fragment) (keep : List String) :
    f.partialView keep =
      if f.isObject then .ok (f.withRequired (f.requiredSeq.filter (isNameIn (f.kept keep))))
      else if f.isTaggedUnion then
        ((f.members "anyOf").mapM (partialView · (f.kept keep))).map (f.withMembers "anyOf")
      else .error (.notObjectOrTaggedUnion f.json.describe) := by
  have hmembers : (f.members "anyOf").attach.mapM (fun member => member.1.partialView (f.kept keep))
      = (f.members "anyOf").mapM (partialView · (f.kept keep)) := by
    rw [List.mapM_subtype (g := (partialView · (f.kept keep))) fun _ _ => rfl, List.unattach_attach]
  rw [partialView, ← hmembers]
  rfl

/-- **Views that succeed** are of an object, which requires less, or of a union, whose members are
views of members. -/
lemma partialView_eq_ok_iff : f.partialView keep = .ok view ↔
    f.isObject = true ∧ f.withRequired (f.requiredSeq.filter (isNameIn (f.kept keep))) = view
    ∨ f.isObject = false ∧ f.isTaggedUnion = true
      ∧ ∃ views, (f.members "anyOf").mapM (partialView · (f.kept keep)) = .ok views
        ∧ f.withMembers "anyOf" views = view := by
  rw [partialView_eq]
  cases f.isObject with
  | true => simp
  | false => cases f.isTaggedUnion <;> simp [map_eq_ok]

/-! ### What a view of an object leaves -/

lemma isObject_withRequired (f : Fragment) (required : List Json) :
    (f.withRequired required).isObject = f.isObject := by
  unfold isObject
  rw [get?, lookup_withRequired_keywords (by decide), get?, lookup_withRequired_keywords (by decide)]
  rfl

/-- What is required is what was set. -/
lemma requiredSeq_withRequired (f : Fragment) (required : List Json) :
    (f.withRequired required).requiredSeq = required := by
  cases required with
  | nil =>
    have hnone : (f.withRequired []).get? "required" = none := Document.lookup_erase_self _ _
    rw [requiredSeq, hnone]
    rfl
  | cons name names =>
    have hsome : (f.withRequired (name :: names)).get? "required" = some (.array (name :: names)) :=
      Entries.lookup_insert_self _ _ _
    rw [requiredSeq, hsome]
    rfl

/-- Setting again what is required replaces it, if nothing new is asked for. -/
lemma withRequired_withRequired (f : Fragment) {fewer : List Json} (h : fewer ⊆ required) :
    (f.withRequired required).withRequired fewer = f.withRequired fewer := by
  cases required with
  | nil =>
    obtain rfl := List.subset_nil.1 h
    exact congrArg₂ Fragment.mk (Entries.erase_erase_self _ _) (clearUnder_clearUnder _ _)
  | cons name names =>
    cases fewer with
    | nil => exact congrArg₂ Fragment.mk (Entries.erase_insert_self _ _ _) (clearUnder_clearUnder _ _)
    | cons => exact congrArg₂ Fragment.mk (Entries.insert_insert_self _ _ _ _) (clearUnder_clearUnder _ _)

/-! ### What a view of a union leaves -/

lemma isObject_withMembers (f : Fragment) (members : List Fragment) :
    (f.withMembers "anyOf" members).isObject = f.isObject := by
  have hkeep : ∀ keyword, "anyOf" ≠ keyword →
      (f.withMembers "anyOf" members).get? keyword = f.get? keyword := fun keyword hkeyword =>
    Entries.lookup_insert_of_ne hkeyword _ _
  rw [isObject, isObject, hkeep "type" (by decide), hkeep "properties" (by decide)]

lemma unionTag?_withMembers (f : Fragment) (hplaced : ∀ member ∈ members, member.WellPlaced) :
    (f.withMembers keyword members).unionTag? = f.unionTag? :=
  congrArg (Option.bind · _) (root?_withMembers f keyword hplaced)

/-- A union stays one under its tag, or as long as its members are schemas of objects. -/
lemma isTaggedUnion_withMembers (hplaced : ∀ member ∈ members, member.WellPlaced)
    (h : f.unionTag?.isSome = true ∨ ∀ member ∈ members, member.isObject = true) :
    (f.withMembers "anyOf" members).isTaggedUnion = true := by
  have hitems : (f.withMembers "anyOf" members).get? "anyOf" = some (.array (members.map json)) :=
    Entries.lookup_insert_self _ _ _
  simp only [isTaggedUnion, hitems, unionTag?_withMembers f hplaced,
    members_withMembers f "anyOf" hplaced, List.length_map, decide_true, Bool.true_and,
    Bool.or_eq_true, List.all_map, List.all_eq_true, Function.comp_apply, isObject_filled]
  exact h

lemma tagged_or_objects (h : f.isTaggedUnion = true) :
    f.unionTag?.isSome = true ∨ ∀ member ∈ f.members "anyOf", member.isObject = true := by
  unfold isTaggedUnion at h
  split at h
  · simp only [Bool.or_eq_true, Bool.and_eq_true, List.all_eq_true] at h
    exact h.imp_right And.right
  · simp at h

/-! ### Views of any schema -/

/-- What holds of a schema if it holds of its members holds of every schema. -/
lemma induction_on_members {P : Fragment → Prop}
    (step : ∀ f, (∀ member ∈ f.members "anyOf", P member) → P f) (f : Fragment) : P f :=
  step f fun member _ => induction_on_members step member
termination_by f.json.depth
decreasing_by exact depth_lt_of_mem_members ‹_›

lemma isNameIn_congr (h : ∀ name, name ∈ keep ↔ name ∈ others) : isNameIn keep = isNameIn others := by
  funext value
  cases value with
  | string name => exact Bool.eq_iff_iff.2 (by simp [isNameIn, h name])
  | _ => rfl

lemma mem_kept_congr (f : Fragment) (h : ∀ name, name ∈ keep ↔ name ∈ others) (name : String) :
    name ∈ f.kept keep ↔ name ∈ f.kept others := by
  simp [kept, h]

/-- A view reads the list of names as a set. -/
lemma partialView_congr (f : Fragment) (h : ∀ name, name ∈ keep ↔ name ∈ others) :
    f.partialView keep = f.partialView others := by
  induction f using induction_on_members generalizing keep others with
  | step f ih =>
    have hkept := mem_kept_congr f h
    rw [partialView_eq, partialView_eq, isNameIn_congr hkept,
      mapM_congr fun member hmember => ih member hmember hkept]

/-- Empty records do not matter. -/
lemma partialView_filled (f : Fragment) (keep : List String) :
    f.filled.partialView keep = (f.partialView keep).map filled := by
  induction f using induction_on_members generalizing keep with
  | step f ih =>
    have hkept : f.filled.kept keep = f.kept keep := by rw [kept, kept, unionTag?_filled]
    have hunion : f.filled.isTaggedUnion = f.isTaggedUnion := by
      simp only [isTaggedUnion, get?_filled, unionTag?_filled, members_filled, List.length_map,
        List.all_map, Function.comp_def, isObject_filled]
    have hmembers : (f.filled.members "anyOf").mapM (partialView · (f.kept keep))
        = ((f.members "anyOf").mapM (partialView · (f.kept keep))).map (List.map filled) := by
      rw [members_filled]
      exact mapM_map_comm fun member hmember => ih member hmember (f.kept keep)
    rw [partialView_eq, partialView_eq, hkept, hunion, isObject_filled, requiredSeq_filled,
      withRequired_filled, hmembers]
    split
    · rfl
    · split
      · cases (f.members "anyOf").mapM (partialView · (f.kept keep)) with
        | error => rfl
        | ok views =>
          exact congrArg Except.ok ((filled_withMembers f "anyOf" _).trans
            (congrArg filled (withMembers_filled f "anyOf" views)))
      · rfl

/-- Whether a view fails, and with what error, does not depend on what is kept. -/
lemma partialView_eq_error_iff (f : Fragment) (keep others : List String) (error : SchemaError) :
    f.partialView keep = .error error ↔ f.partialView others = .error error := by
  induction f using induction_on_members generalizing keep others error with
  | step f ih =>
    rw [partialView_eq, partialView_eq f others]
    split
    · simp
    · split
      · rw [map_eq_error, map_eq_error]
        exact mapM_eq_error_congr (fun member hmember => ih member hmember _ _) error
      · rfl

/-- A view carries the record of the schema, and is one of objects if the schema is. -/
lemma partialView_keeps (h : f.partialView keep = .ok view) :
    view.root? = f.root? ∧ view.isObject = f.isObject ∧ (f.WellPlaced → view.WellPlaced) := by
  induction f using induction_on_members generalizing keep view with
  | step f ih =>
    obtain ⟨-, rfl⟩ | ⟨-, -, views, hviews, rfl⟩ := partialView_eq_ok_iff.1 h
    · exact ⟨root?_withRequired f _, isObject_withRequired f _, fun hplaced =>
        wellPlaced_withRequired hplaced _⟩
    · have hplaced : ∀ view ∈ views, view.WellPlaced := by
        intro view hview
        obtain ⟨member, hmember, hview⟩ := (mapM_eq_ok hviews).2 view hview
        exact (ih member hmember hview).2.2 (wellPlaced_of_mem_members hmember)
      exact ⟨root?_withMembers f "anyOf" hplaced, isObject_withMembers f views, fun hself =>
        wellPlaced_withMembers hself "anyOf" hplaced⟩

/-- The members of a view of a union, where records stand. -/
lemma wellPlaced_views {views : List Fragment}
    (hviews : (f.members "anyOf").mapM (partialView · keep) = .ok views) :
    ∀ view ∈ views, view.WellPlaced := by
  intro view hview
  obtain ⟨member, hmember, hview⟩ := (mapM_eq_ok hviews).2 view hview
  exact (partialView_keeps hview).2.2 (wellPlaced_of_mem_members hmember)

/-- A view of a union is a union of as many members. -/
lemma isTaggedUnion_view {views : List Fragment} (hunion : f.isTaggedUnion = true)
    (hviews : (f.members "anyOf").mapM (partialView · keep) = .ok views) :
    (f.withMembers "anyOf" views).isTaggedUnion = true := by
  refine isTaggedUnion_withMembers (wellPlaced_views hviews)
    ((tagged_or_objects hunion).imp_right fun hobjects view hview => ?_)
  obtain ⟨member, hmember, hview⟩ := (mapM_eq_ok hviews).2 view hview
  exact (partialView_keeps hview).2.1.trans (hobjects member hmember)

lemma isNameIn_inter (keep others : List String) (value : Json) :
    (isNameIn others value && isNameIn keep value) = isNameIn (keep ∩ others) value := by
  cases value <;> simp [isNameIn, Bool.and_comm]

lemma mem_kept_inter (f : Fragment) (keep others : List String) (name : String) :
    name ∈ f.kept keep ∩ f.kept others ↔ name ∈ f.kept (keep ∩ others) := by
  simp only [kept, List.mem_inter_iff, List.mem_append]
  tauto

/-- Names that are left out once stay out. -/
lemma withRequired_view (f : Fragment) (keep others : List String) :
    (f.withRequired (f.requiredSeq.filter (isNameIn keep))).withRequired
        ((f.withRequired (f.requiredSeq.filter (isNameIn keep))).requiredSeq.filter (isNameIn others))
      = f.withRequired (f.requiredSeq.filter (isNameIn (keep ∩ others))) := by
  rw [requiredSeq_withRequired, withRequired_withRequired f List.filter_sublist.subset,
    List.filter_filter]
  simp only [isNameIn_inter]

/-- A view that succeeds can be viewed in turn, which leaves what both keep. -/
lemma partialView_view (h : f.partialView keep = .ok view) (others : List String) :
    ∃ both, view.partialView others = .ok both ∧ f.partialView (keep ∩ others) = .ok both := by
  induction f using induction_on_members generalizing keep view others with
  | step f ih =>
    obtain ⟨hroot, hobject, -⟩ := partialView_keeps h
    have htag : view.unionTag? = f.unionTag? := congrArg (Option.bind · _) hroot
    have hkept : view.kept others = f.kept others := by rw [kept, htag, kept]
    simp only [partialView_eq_ok_iff, hobject, hkept]
    obtain ⟨hself, rfl⟩ | ⟨hself, hunion, views, hviews, rfl⟩ := partialView_eq_ok_iff.1 h
    · refine ⟨_, Or.inl ⟨hself, rfl⟩, Or.inl ⟨hself, ?_⟩⟩
      rw [withRequired_view, isNameIn_congr (mem_kept_inter f keep others)]
    · have hplaced := wellPlaced_views hviews
      obtain ⟨boths, hviewed, hmembers⟩ := mapM_mapM hviews fun member hmember view hview =>
        (ih member hmember hview (f.kept others)).imp fun both hboth =>
          ⟨hboth.1, (partialView_congr member (mem_kept_inter f keep others)) ▸ hboth.2⟩
      refine ⟨f.withMembers "anyOf" boths, Or.inr ⟨hself, isTaggedUnion_view hunion hviews,
        boths.map filled, ?_, ?_⟩, Or.inr ⟨hself, hunion, boths, hmembers, rfl⟩⟩
      -- What is put in comes out without its empty records, which no view looks at.
      · rw [members_withMembers f "anyOf" hplaced,
          mapM_map_comm fun member _ => partialView_filled member _, hviewed]
        rfl
      · rw [withMembers_withMembers, withMembers_filled]

/-- **Views compose.**  Whether a view fails, and how, does not depend on what it keeps; and to view a
view is to keep what both keep. -/
theorem view_of_view (f : Fragment) (keep others : List String) :
    (∀ error, f.partialView keep = .error error ↔ f.partialView others = .error error)
      ∧ (f.partialView keep >>= fun view => view.partialView others) = f.partialView (keep ∩ others) := by
  refine ⟨partialView_eq_error_iff f keep others, ?_⟩
  cases hview : f.partialView keep with
  | error error => exact ((partialView_eq_error_iff f keep _ error).1 hview).symm
  | ok view =>
    obtain ⟨both, hviewed, hboth⟩ := partialView_view hview others
    exact hviewed.trans hboth.symm

end Fragment

end SchemaAlgebra
