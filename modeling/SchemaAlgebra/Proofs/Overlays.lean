import SchemaAlgebra.Options
import SchemaAlgebra.Proofs.Records
import SchemaAlgebra.Proofs.Repetitions

/-!
# Options laid over others

Options come in layers, and it does not matter which layers are put together first.  Each field has a
rule of its own: of transforms and settings those of the upper layer win, of keywords and classes the
first ones stay.

* `Options.Overlays` — what the options are in which one layer lies over another.
* **`Options.merged_associates`** — merging is associative, nothing is neutral on either side, and
  options that were merged stay as they are when merged with themselves.
-/

namespace SchemaAlgebra

/-- Of two tables, one entered into the other, the entered one is asked first. -/
lemma Table.lookup_enter {α : Type} (lower upper : Table α) (key : String) :
    (lower.enter upper.entries).lookup key = (upper.lookup key).or (lower.lookup key) :=
  Entries.lookup_enter (Entries.nodup_of_sorted upper.sorted) lower.entries key

namespace MatcherOptions

lemma overlay_assoc (first second third : MatcherOptions) :
    (first.overlay second).overlay third = first.overlay (second.overlay third) := by
  simp only [overlay, Option.or_assoc]

lemma open_overlay (options : MatcherOptions) : overlay {} options = options := by
  simp only [overlay, Option.or_none]

lemma overlay_open (options : MatcherOptions) : options.overlay {} = options := by
  simp only [overlay, Option.none_or]

lemma overlay_self (options : MatcherOptions) : options.overlay options = options := by
  simp only [overlay, Option.or_self]

end MatcherOptions

namespace Options

/-- Whether two classes have the same name. -/
def sameName (earlier later : Class) : Bool :=
  earlier.name == later.name

lemma sameName_trans (first second third : Class) (h : sameName first second = true)
    (h' : sameName second third = true) : sameName first third = true := by
  simp only [sameName, beq_iff_eq] at h h' ⊢
  rw [h, h']

lemma sameName_comm (first second : Class) : sameName first second = sameName second first :=
  BEq.comm

/-- **A layer over another.**  Every transform and every setting is that of the upper layer if it has
one, and else that of the lower; the keywords and the classes of the lower layer stand first, of
keywords and of classes of one name only the first. -/
structure Overlays (lower upper result : Options) : Prop where
  transforms : ∀ name, result.transforms.lookup name
    = (upper.transforms.lookup name).or (lower.transforms.lookup name)
  draft : result.matcher.draft = upper.matcher.draft.or lower.matcher.draft
  validateFormats : result.matcher.validateFormats
    = upper.matcher.validateFormats.or lower.matcher.validateFormats
  allErrors : result.matcher.allErrors = upper.matcher.allErrors.or lower.matcher.allErrors
  verbose : result.matcher.verbose = upper.matcher.verbose.or lower.matcher.verbose
  removeAdditional : result.matcher.removeAdditional
    = upper.matcher.removeAdditional.or lower.matcher.removeAdditional
  keywords : result.keywords = (lower.keywords ++ upper.keywords).eraseDups
  classes : result.classes = (lower.classes ++ upper.classes).eraseDupsBy sameName

lemma overlays_overlay (lower upper : Options) : Overlays lower upper (lower.overlay upper) where
  transforms := Table.lookup_enter lower.transforms upper.transforms
  draft := rfl
  validateFormats := rfl
  allErrors := rfl
  verbose := rfl
  removeAdditional := rfl
  keywords := by
    have hsame : (fun later earlier : String => earlier == later) = (· == ·) :=
      funext fun later => funext fun earlier => BEq.comm
    rw [overlay, dedupeBy_eq_eraseDupsBy, hsame]
    rfl
  classes := by
    have hsame : (fun later earlier => sameName earlier later) = sameName :=
      funext fun later => funext fun earlier => sameName_comm earlier later
    exact (dedupeBy_eq_eraseDupsBy sameName _).trans (by rw [hsame])

/-- Options of which every field agrees are the same. -/
lemma ext_fields {first second : Options}
    (htransforms : ∀ name, first.transforms.lookup name = second.transforms.lookup name)
    (hmatcher : first.matcher = second.matcher) (hkeywords : first.keywords = second.keywords)
    (hclasses : first.classes = second.classes) : first = second := by
  cases first
  cases second
  cases Table.ext_lookup htransforms
  cases hmatcher
  cases hkeywords
  cases hclasses
  rfl

lemma overlay_assoc (first second third : Options) :
    (first.overlay second).overlay third = first.overlay (second.overlay third) := by
  refine ext_fields (fun name => ?_) (MatcherOptions.overlay_assoc _ _ _) ?_ ?_
  · simp only [(overlays_overlay _ _).transforms, Option.or_assoc]
  · have htrans : ∀ a b c : String, (a == b) = true → (b == c) = true → (a == c) = true :=
      fun _ _ _ => BEq.trans
    exact dedupeBy_append_assoc htrans _ _ _
  · exact dedupeBy_append_assoc sameName_trans _ _ _

/-- No options are neutral on either side, save that repetitions are dropped. -/
lemma empty_overlay (options : Options) : overlay {} options = options.overlay {} := by
  refine ext_fields (fun name => ?_) ?_ ?_ ?_
  · rw [(overlays_overlay _ _).transforms, (overlays_overlay _ _).transforms]
    exact Option.or_none.trans Option.none_or.symm
  · exact (MatcherOptions.open_overlay _).trans (MatcherOptions.overlay_open _).symm
  · exact congrArg (dedupeBy _) (List.append_nil _).symm
  · exact congrArg (dedupeBy _) (List.append_nil _).symm

/-- Options without repetitions stay as they are when laid over themselves. -/
lemma overlay_self {options : Options} (hkeywords : dedupeBy (· == ·) options.keywords = options.keywords)
    (hclasses : dedupeBy sameName options.classes = options.classes) :
    options.overlay options = options := by
  refine ext_fields (fun name => ?_) (MatcherOptions.overlay_self _)
    (dedupeBy_append_self (fun _ => beq_self_eq_true _) hkeywords)
    (dedupeBy_append_self (fun _ => beq_self_eq_true _) hclasses)
  rw [(overlays_overlay _ _).transforms, Option.or_self]

lemma overlay_overlay_self (first second : Options) :
    (first.overlay second).overlay (first.overlay second) = first.overlay second :=
  overlay_self (dedupeBy_dedupeBy _) (dedupeBy_dedupeBy _)

/-- **Options in layers.**  Merging lays the second options over the first; it is associative, missing
options are as good as on the other side, and merged options merged with themselves are the same. -/
theorem merged_associates (first second third : Option Options) :
    Overlays (first.getD {}) (second.getD {}) (merged first second)
      ∧ merged (some (merged first second)) third = merged first (some (merged second third))
      ∧ merged none first = merged first none
      ∧ merged (some (merged first second)) (some (merged first second)) = merged first second :=
  ⟨overlays_overlay _ _, overlay_assoc _ _ _, empty_overlay _, overlay_overlay_self _ _⟩

end Options

end SchemaAlgebra
