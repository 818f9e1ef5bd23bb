import SchemaAlgebra.Class
import SchemaAlgebra.Proofs.Timestamps

/-!
# Dates as they are built

A date is built from a timestamp or from milliseconds by writing their instant in UTC, and a date
that is given is kept as it is.  It is canonical when it can be built from its own text again.  This
takes a year that is written with four digits, and of a date that is given that it is written in UTC
already.

* `Class.serializedInstant?` — the instant that a serialized value stands for.
* `Class.IsCanonical` — what is expected of the date built from a value.
* **`Class.constructed_canonical_iff`** — when the date built from a value is an instance, and when it
  is canonical.
* `Class.built_not_canonical` — what is built in the year 10000, and what is kept of another zone.
-/

namespace SchemaAlgebra.Class

variable {serialized built value : Json} {i : Instant}

/-! ## Dates and instants -/

lemma instantOfDate?_eq_some : instantOfDate? value = some i
    ↔ ∃ text, value = .object [(dateKey, .string text)] ∧ Instant.parse? text = some i := by
  refine ⟨fun h => ?_, ?_⟩
  · unfold instantOfDate? at h
    split at h
    · rename_i key text
      obtain ⟨rfl, h⟩ := Option.ite_none_right_eq_some.1 h
      exact ⟨text, rfl, h⟩
    · simp at h
  · rintro ⟨text, rfl, h⟩
    rw [instantOfDate?, if_pos rfl, h]

lemma isInstance_date : date.isInstance value = (instantOfDate? value).isSome := rfl

/-- What is written of an instant is read as its text is. -/
lemma instantOfDate?_dateOfInstant : instantOfDate? (dateOfInstant i) = Instant.parse? i.text := by
  rw [dateOfInstant, instantOfDate?, if_pos rfl]

lemma isInstance_dateOfInstant_iff (hproper : i.IsProper) :
    date.isInstance (dateOfInstant i) = true ↔ i.HasPlainYear := by
  rw [isInstance_date, instantOfDate?_dateOfInstant]
  by_cases hyear : i.HasPlainYear
  · simp [Instant.parse?_text hproper hyear, hyear]
  · simp [Instant.parse?_text_eq_none hyear, hyear]

/-- The instant that a serialized value stands for. -/
def serializedInstant? : Json → Option Instant
  | .string text => Instant.parse? text
  | .number (.int millis) => Instant.ofMillis? millis
  | value => instantOfDate? value

lemma serializedInstant?_of_instantOfDate? (h : instantOfDate? value = some i) :
    serializedInstant? value = some i := by
  obtain ⟨text, rfl, hread⟩ := instantOfDate?_eq_some.1 h
  exact h

lemma isProper_of_serializedInstant? (h : serializedInstant? serialized = some i) : i.IsProper := by
  unfold serializedInstant? at h
  split at h
  · exact Instant.isProper_of_parse? h
  · exact Instant.isProper_of_ofMillis? h
  · obtain ⟨text, -, hread⟩ := instantOfDate?_eq_some.1 h
    exact Instant.isProper_of_parse? hread

/-! ## Building -/

/-- What is no date yet is built by way of its instant. -/
lemma toOption_construct_date (h : date.isInstance serialized = false) :
    (date.construct serialized).toOption = (serializedInstant? serialized).map dateOfInstant := by
  have hnone : instantOfDate? serialized = none :=
    Option.isNone_iff_eq_none.1 (Option.isSome_eq_false_iff.1 h)
  have hconstruct : date.construct serialized = constructDate serialized := rfl
  rw [hconstruct, constructDate, if_neg (by rw [hnone]; decide)]
  cases serialized with
  | string text =>
    dsimp only [serializedInstant?]
    cases Instant.parse? text <;> rfl
  | number number =>
    cases number with
    | int millis =>
      dsimp only [serializedInstant?]
      split
      · rename_i hlarge
        have hgreatest : ¬ ((Nat.pow 2 63 : ℕ) : ℤ) ≤ Instant.greatestMillis := by decide
        have houtside : Instant.ofMillis? millis = none :=
          if_neg fun hinside => hgreatest (Int.le_trans hlarge hinside.2)
        rw [houtside]
        rfl
      · cases Instant.ofMillis? millis <;> rfl
    | double value => rfl
  | null | bool _ | array _ => rfl
  | object members =>
    dsimp only [serializedInstant?]
    rw [hnone]
    rfl

/-- A date is built from exactly what stands for an instant. -/
lemma construct_date_iff : date.construct serialized = .ok built
    ↔ ∃ i, serializedInstant? serialized = some i
      ∧ built = if date.isInstance serialized then serialized else dateOfInstant i := by
  cases hgiven : date.isInstance serialized with
  | true =>
    obtain ⟨i, hi⟩ := Option.isSome_iff_exists.1 hgiven
    have hconstruct : date.construct serialized = .ok serialized := if_pos hgiven
    simp [hconstruct, serializedInstant?_of_instantOfDate? hi, eq_comm]
  | false =>
    have hconstruct := toOption_construct_date hgiven
    cases hbuilt : date.construct serialized with
    | ok value =>
      rw [hbuilt] at hconstruct
      obtain ⟨i, hi, rfl⟩ := Option.map_eq_some_iff.1 hconstruct.symm
      simp [hi, eq_comm]
    | error failure =>
      rw [hbuilt] at hconstruct
      simp [Option.map_eq_none_iff.1 hconstruct.symm]

/-- **What is expected of the date built from a value**: it is an instance; it holds its own text, from
which it is built again; and built from milliseconds, it lies that many after the start of 1970. -/
structure IsCanonical (serialized built : Json) : Prop where
  isInstance : date.isInstance built = true
  again : ∃ text, dateText? built = some text ∧ built = .object [(dateKey, .string text)]
    ∧ date.construct (.string text) = .ok built
  millis : ∀ millis, serialized = .number (.int millis) →
    (instantOfDate? built).map Instant.epochMillis = some millis

lemma isCanonical_dateOfInstant (h : serializedInstant? serialized = some i)
    (hyear : i.HasPlainYear) : IsCanonical serialized (dateOfInstant i) := by
  have hproper := isProper_of_serializedInstant? h
  have hread := Instant.parse?_text hproper hyear
  have hinstant : instantOfDate? (dateOfInstant i) = some i := instantOfDate?_dateOfInstant.trans hread
  refine ⟨(isInstance_dateOfInstant_iff hproper).2 hyear, ⟨i.text, ?_, rfl, ?_⟩, ?_⟩
  · rw [dateText?, hinstant, Option.map_some]
  · exact construct_date_iff.2 ⟨i, hread, rfl⟩
  · rintro millis rfl
    rw [hinstant, Option.map_some, Instant.epochMillis_of_ofMillis? h]

/-- A canonical date is the date of its instant. -/
lemma IsCanonical.exists_instant (h : IsCanonical serialized built) :
    ∃ i, instantOfDate? built = some i ∧ built = dateOfInstant i := by
  obtain ⟨text, htext, hbuilt, -⟩ := h.again
  obtain ⟨i, hi, rfl⟩ := Option.map_eq_some_iff.1 htext
  exact ⟨i, hi, hbuilt⟩

/-- A date written from an instant is canonical if its year has four digits. -/
lemma isCanonical_dateOfInstant_iff (h : serializedInstant? serialized = some i) :
    IsCanonical serialized (dateOfInstant i) ↔ i.HasPlainYear :=
  ⟨fun hcanonical =>
    (isInstance_dateOfInstant_iff (isProper_of_serializedInstant? h)).1 hcanonical.isInstance,
    isCanonical_dateOfInstant h⟩

/-- A date that is kept is canonical if it is the date of its instant. -/
lemma isCanonical_self_iff (hgiven : date.isInstance serialized = true)
    (h : serializedInstant? serialized = some i) :
    IsCanonical serialized serialized ↔ serialized = dateOfInstant i := by
  refine ⟨fun hcanonical => ?_, fun heq => ?_⟩
  · obtain ⟨j, hj, heq⟩ := hcanonical.exists_instant
    obtain rfl : j = i := Option.some.inj ((serializedInstant?_of_instantOfDate? hj).symm.trans h)
    exact heq
  · have hyear : i.HasPlainYear :=
      (isInstance_dateOfInstant_iff (isProper_of_serializedInstant? h)).1 (heq ▸ hgiven)
    have hcanonical := isCanonical_dateOfInstant h hyear
    rwa [← heq] at hcanonical

/-- **Built dates.**  What is built from a value is the value itself if that is a date, and otherwise the
date of the instant that the value stands for.  It is an instance if a date was given or the year is
written with four digits.  It is canonical if the date that was given is the date of its instant, or if
none was given and the year is written with four digits; in milliseconds, these are the years from the
start of 0 to the end of 9999. -/
theorem constructed_canonical_iff (h : date.construct serialized = .ok built) :
    ∃ i, serializedInstant? serialized = some i
      ∧ built = (if date.isInstance serialized then serialized else dateOfInstant i)
      ∧ (date.isInstance built = true ↔ date.isInstance serialized = true ∨ i.HasPlainYear)
      ∧ (IsCanonical serialized built
        ↔ if date.isInstance serialized then serialized = dateOfInstant i else i.HasPlainYear)
      ∧ ∀ millis, serialized = .number (.int millis) → (IsCanonical serialized built
        ↔ -62167219200000 ≤ millis ∧ millis ≤ 253402300799999) := by
  obtain ⟨i, hi, hbuilt⟩ := construct_date_iff.1 h
  refine ⟨i, hi, hbuilt, ?_, ?_, ?_⟩
  · by_cases hgiven : date.isInstance serialized = true
    · rw [hbuilt, if_pos hgiven]
      simp [hgiven]
    · rw [hbuilt, if_neg hgiven, or_iff_right hgiven,
        isInstance_dateOfInstant_iff (isProper_of_serializedInstant? hi)]
  · by_cases hgiven : date.isInstance serialized = true
    · rw [hbuilt, if_pos hgiven, if_pos hgiven]
      exact isCanonical_self_iff hgiven hi
    · rw [hbuilt, if_neg hgiven, if_neg hgiven]
      exact isCanonical_dateOfInstant_iff hi
  · rintro millis rfl
    have hnumber : ¬ date.isInstance (.number (.int millis)) = true := Bool.false_ne_true
    rw [hbuilt, if_neg hnumber, isCanonical_dateOfInstant_iff hi]
    exact Instant.hasPlainYear_of_ofMillis? hi

/-- The date of an evening in UTC. -/
def evening : Json := .object [(dateKey, .string "2020-05-27T20:29:05.212Z")]

/-- The date of the same evening, in a zone two hours ahead of UTC. -/
def eveningAhead : Json := .object [(dateKey, .string "2020-05-27T22:29:05.212+02:00")]

/-- Milliseconds of a year of four digits give a canonical date. -/
theorem evening_canonical : date.construct (.number (.int 1590611345212)) = .ok evening
    ∧ IsCanonical (.number (.int 1590611345212)) evening := by
  have hbuilt : date.construct (.number (.int 1590611345212)) = .ok evening := rfl
  obtain ⟨i, -, -, -, -, hmillis⟩ := constructed_canonical_iff hbuilt
  exact ⟨hbuilt, (hmillis 1590611345212 rfl).2 (by decide)⟩

/-- The first millisecond of the year 10000 gives what is no instance; and a date that was given in
another zone stays in this zone. -/
theorem built_not_canonical :
    (∃ built, date.construct (.number (.int 253402300800000)) = .ok built
      ∧ date.isInstance built = false)
    ∧ date.construct eveningAhead = .ok eveningAhead ∧ ¬ IsCanonical eveningAhead eveningAhead := by
  refine ⟨⟨.object [(dateKey, .string "+10000-01-01T00:00:00.000Z")], rfl, rfl⟩, rfl, fun h => ?_⟩
  obtain ⟨text, htext, hdate, -⟩ := h.again
  have hutc : dateText? eveningAhead = some "2020-05-27T20:29:05.212Z" := rfl
  obtain rfl := Option.some.inj (htext.symm.trans hutc)
  simp [eveningAhead] at hdate

end SchemaAlgebra.Class
