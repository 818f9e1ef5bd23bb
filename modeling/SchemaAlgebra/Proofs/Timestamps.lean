import Mathlib.Algebra.Group.Nat.Defs
import SchemaAlgebra.Proofs.Calendar
import SchemaAlgebra.Proofs.Tokens

/-!
# Instants and their timestamps

The written form of an instant names this instant as long as its year is written with four digits;
with a sign before the year it names none.

* `Instant.IsProper`, `Instant.HasPlainYear` — the instants there are, and those whose years are written
  without a sign.
* **`Instant.parse?_text`**, **`Instant.parse?_text_eq_none`** — whether the written form is read back.
* `Instant.isProper_of_parse?`, `Instant.isProper_of_ofMillis?` — what is found is proper.
-/

namespace SchemaAlgebra.Instant

/-! ## Digits -/

section Digits

variable {width n : ℕ}

lemma toList_padded : (padded width n).toList
    = List.replicate (width - (Nat.toDigits 10 n).length) '0' ++ Nat.toDigits 10 n := by
  rw [padded, String.toList_ofList]

lemma isDigit_of_mem_padded {c : Char} (h : c ∈ (padded width n).toList) : c.isDigit = true := by
  rw [toList_padded, List.mem_append] at h
  rcases h with h | h
  · rw [List.eq_of_mem_replicate h]
    decide
  · exact Nat.isDigit_of_mem_toDigits (by decide) (by decide) h

lemma length_padded (hwidth : 0 < width) (h : n < 10 ^ width) :
    (padded width n).toList.length = width := by
  have hle : (Nat.toDigits 10 n).length ≤ width :=
    (Nat.length_toDigits_le_iff (by decide) hwidth).2 h
  rw [toList_padded, List.length_append, List.length_replicate, Nat.sub_add_cancel hle]

lemma decimal_padded : Numeral.decimal (padded width n).toList = n := by
  rw [toList_padded, Numeral.decimal, Nat.ofDigitChars_append, Nat.ofDigitChars_replicate_zero,
    Nat.mul_zero]
  exact Numeral.decimal_toDigits n

/-- A padded number is read back. -/
lemma digits?_padded (hwidth : 0 < width) (h : n < 10 ^ width) (rest : List Char) :
    digits? width ((padded width n).toList ++ rest) = some (n, rest) := by
  have hlength := length_padded hwidth h
  have htake : ((padded width n).toList ++ rest).take width = (padded width n).toList :=
    List.take_left' hlength
  have hdrop : ((padded width n).toList ++ rest).drop width = rest := List.drop_left' hlength
  have hdigits : (padded width n).toList.all Char.isDigit = true :=
    List.all_eq_true.2 fun _ => isDigit_of_mem_padded
  simp only [digits?, htake, hdrop, hlength, hdigits, decimal_padded, and_self, if_true]

lemma decimal_lt {ds : List Char} (h : ∀ c ∈ ds, c.isDigit = true) :
    Numeral.decimal ds < 10 ^ ds.length := by
  induction ds using List.reverseRecOn with
  | nil => decide
  | append_singleton ds c ih =>
    obtain ⟨d, hd, rfl⟩ := Pointer.exists_digitChar (h c (by simp))
    have hlt := ih fun c hc => h c (List.mem_append_left _ hc)
    have hvalue : Numeral.decimal (ds ++ [d.digitChar]) = 10 * Numeral.decimal ds + d := by
      rw [Numeral.decimal, Nat.ofDigitChars_append, Nat.ofDigitChars_cons_digitChar_of_lt_ten hd,
        Nat.ofDigitChars_nil]
      rfl
    rw [hvalue, List.length_append, List.length_singleton, Nat.pow_succ]
    omega

end Digits

/-! ## Instants -/

/-- An instant has less than a thousand milliseconds, unless it belongs to the leap second at the end of
a minute. -/
def IsProper (i : Instant) : Prop :=
  i.millis < 1000 ∨ i.millis < 2000 ∧ i.seconds % 60 = 59

/-- The year of an instant in UTC. -/
def year (i : Instant) : ℤ :=
  (dateOf (i.seconds / 86400)).1

/-- The year is written with four digits and no sign. -/
def HasPlainYear (i : Instant) : Prop :=
  0 ≤ i.year ∧ i.year ≤ 9999

variable {i : Instant} {s : String}

/-! ## Reading what is written -/

/-- The characters of a timestamp in UTC. -/
def timestamp (year month day hour minute second millis : ℕ) : List Char :=
  (padded 4 year).toList ++ '-' :: ((padded 2 month).toList ++ '-' :: ((padded 2 day).toList
    ++ 'T' :: ((padded 2 hour).toList ++ ':' :: ((padded 2 minute).toList
      ++ ':' :: ((padded 2 second).toList ++ '.' :: ((padded 3 millis).toList ++ ['Z']))))))

lemma fraction?_padded {millis : ℕ} (h : millis < 1000) {c : Char} (hc : c.isDigit = false)
    (rest : List Char) :
    fraction? ('.' :: ((padded 3 millis).toList ++ c :: rest)) = some (millis, c :: rest) := by
  have hlength := length_padded (show 0 < 3 by decide) h
  have hdigits : ∀ d ∈ (padded 3 millis).toList, d.isDigit = true := fun _ => isDigit_of_mem_padded
  have htake : ((padded 3 millis).toList ++ c :: rest).takeWhile Char.isDigit
      = (padded 3 millis).toList := by
    rw [List.takeWhile_append_of_pos hdigits, List.takeWhile_cons_of_neg (by simp [hc]),
      List.append_nil]
  have hdrop : ((padded 3 millis).toList ++ c :: rest).dropWhile Char.isDigit = c :: rest := by
    rw [List.dropWhile_append_of_pos hdigits, List.dropWhile_cons_of_neg (by simp [hc])]
  have hnonempty : (padded 3 millis).toList.isEmpty = false := by
    rw [List.isEmpty_eq_false_iff, ← List.length_pos_iff, hlength]
    decide
  have hcut : ((padded 3 millis).toList ++ ['0', '0']).take 3 = (padded 3 millis).toList :=
    List.take_left' hlength
  simp only [fraction?, htake, hdrop, hnonempty, hcut, decimal_padded]
  rfl

/-- A timestamp of a date that exists names the instant of its date and time. -/
lemma parse?_of_timestamp {year month day hour minute second millis : ℕ}
    (h : s.toList = timestamp year month day hour minute second millis) (hyear : year < 10000)
    (hmonth : 1 ≤ month ∧ month ≤ 12) (hday : 1 ≤ day ∧ day ≤ daysInMonth year month)
    (hhour : hour ≤ 23) (hminute : minute ≤ 59) (hsecond : second ≤ 60) (hmillis : millis < 1000) :
    parse? s = some ⟨dayNumber year month day * 86400
        + (hour * 3600 + minute * 60 + (min second 59 : ℕ)),
      millis + if second = 60 then 1000 else 0⟩ := by
  have hdays : daysInMonth year month ≤ 31 := by
    rw [daysInMonth]
    split_ifs <;> omega
  have hfour : ∀ rest, digits? 4 ((padded 4 year).toList ++ rest) = some (year, rest) :=
    digits?_padded (by decide) hyear
  have htwo : ∀ {n : ℕ}, n < 100 → ∀ rest, digits? 2 ((padded 2 n).toList ++ rest) = some (n, rest) :=
    fun hn => digits?_padded (by decide) hn
  have hafter : ∀ (c : Char) rest, after? c (c :: rest) = some rest := fun _ _ => if_pos rfl
  rw [parse?, h, timestamp]
  refine Option.bind_eq_some_iff.2 ⟨_, hfour _, ?_⟩
  refine Option.bind_eq_some_iff.2 ⟨_, hafter '-' _, ?_⟩
  refine Option.bind_eq_some_iff.2 ⟨_, htwo (by omega) _, ?_⟩
  refine Option.bind_eq_some_iff.2 ⟨_, hafter '-' _, ?_⟩
  refine Option.bind_eq_some_iff.2 ⟨_, htwo (by omega) _, ?_⟩
  dsimp only
  rw [if_pos (Or.inl rfl)]
  refine Option.bind_eq_some_iff.2 ⟨_, rfl, ?_⟩
  refine Option.bind_eq_some_iff.2 ⟨_, htwo (by omega) _, ?_⟩
  refine Option.bind_eq_some_iff.2 ⟨_, hafter ':' _, ?_⟩
  refine Option.bind_eq_some_iff.2 ⟨_, htwo (by omega) _, ?_⟩
  refine Option.bind_eq_some_iff.2 ⟨_, hafter ':' _, ?_⟩
  refine Option.bind_eq_some_iff.2 ⟨_, htwo (by omega) _, ?_⟩
  refine Option.bind_eq_some_iff.2 ⟨_, fraction?_padded hmillis (by decide) [], ?_⟩
  refine Option.bind_eq_some_iff.2 ⟨0, rfl, ?_⟩
  dsimp only
  rw [if_pos ⟨hmonth.1, hmonth.2, hday.1, hday.2, hhour, hminute, hsecond⟩, Int.sub_zero]
  rfl

lemma toList_text (h : i.HasPlainYear) : i.text.toList = timestamp i.year.toNat
    (dateOf (i.seconds / 86400)).2.1 (dateOf (i.seconds / 86400)).2.2
    ((i.seconds % 86400).toNat / 3600) ((i.seconds % 86400).toNat / 60 % 60)
    ((i.seconds % 86400).toNat % 60 + i.millis / 1000) (i.millis % 1000) := by
  have hyear : 0 ≤ (dateOf (i.seconds / 86400)).1 ∧ (dateOf (i.seconds / 86400)).1 ≤ 9999 := h
  simp only [text, yearText, hyear, and_self, if_true, String.toList_append, timestamp, year]
  simp

/-- The second of the minute is a sixtieth in a leap second only. -/
lemma second_of_isProper (h : i.IsProper) :
    ((i.seconds % 86400).toNat % 60 + i.millis / 1000 = 60 ∧ i.seconds % 60 = 59
        ∧ i.millis % 1000 + 1000 = i.millis)
      ∨ ((i.seconds % 86400).toNat % 60 + i.millis / 1000 = (i.seconds % 60).toNat
        ∧ i.millis % 1000 = i.millis) := by
  rw [IsProper] at h
  omega

/-- The seconds of a day make up its hours, minutes and seconds. -/
lemma seconds_eq_of_isProper (h : i.IsProper) :
    i.seconds / 86400 * 86400 + (((i.seconds % 86400).toNat / 3600 : ℕ) * 3600
      + ((i.seconds % 86400).toNat / 60 % 60 : ℕ) * 60
      + (min ((i.seconds % 86400).toNat % 60 + i.millis / 1000) 59 : ℕ)) = i.seconds := by
  rcases second_of_isProper h with ⟨hleap, hminute, -⟩ | ⟨hplain, -⟩
  · rw [hleap]
    omega
  · rw [hplain]
    omega

lemma millis_eq_of_isProper (h : i.IsProper) :
    (i.millis % 1000 + if (i.seconds % 86400).toNat % 60 + i.millis / 1000 = 60 then 1000 else 0)
      = i.millis := by
  rcases second_of_isProper h with ⟨hleap, -, hmillis⟩ | ⟨hplain, hmillis⟩
  · rw [if_pos hleap, hmillis]
  · rw [if_neg (by omega), Nat.add_zero, hmillis]

/-- The timestamp of an instant whose year has four digits names this instant. -/
theorem parse?_text (hproper : i.IsProper) (hyear : i.HasPlainYear) : parse? i.text = some i := by
  obtain ⟨hmonth, hday⟩ := dateOf_exists (i.seconds / 86400)
  have hyear' : (i.year.toNat : ℤ) = (dateOf (i.seconds / 86400)).1 := Int.toNat_of_nonneg hyear.1
  have hlast : i.year.toNat < 10000 := by
    have hle := hyear.2
    omega
  have hsecond : (i.seconds % 86400).toNat % 60 + i.millis / 1000 ≤ 60 := by
    have hsecond := second_of_isProper hproper
    omega
  have hread := parse?_of_timestamp (toList_text hyear) hlast hmonth (by rw [hyear']; exact hday)
    (by omega) (by omega) hsecond (Nat.mod_lt _ (by decide))
  rw [hread, hyear', dayNumber_dateOf, seconds_eq_of_isProper hproper, millis_eq_of_isProper hproper]

/-- A timestamp whose year does not have four digits names no instant. -/
theorem parse?_text_eq_none (h : ¬ i.HasPlainYear) : parse? i.text = none := by
  have hyear : ¬ (0 ≤ (dateOf (i.seconds / 86400)).1 ∧ (dateOf (i.seconds / 86400)).1 ≤ 9999) := h
  obtain ⟨sign, rest, hsign, htext⟩ : ∃ sign rest, sign.isDigit = false
      ∧ (yearText (dateOf (i.seconds / 86400)).1).toList = sign :: rest := by
    rw [yearText, if_neg hyear, String.toList_append]
    split
    · exact ⟨'-', _, by decide, rfl⟩
    · exact ⟨'+', _, by decide, rfl⟩
  have hdigits : digits? 4 i.text.toList = none := by
    simp [digits?, text, htext, hsign]
  rw [parse?, hdigits]
  rfl

/-! ## What is read -/

lemma fraction?_lt {cs rest : List Char} {millis : ℕ} (h : fraction? cs = some (millis, rest)) :
    millis < 1000 := by
  unfold fraction? at h
  split at h
  · rename_i digits
    dsimp only at h
    split at h
    · simp at h
    · obtain ⟨rfl, -⟩ := Prod.mk.injEq .. ▸ Option.some.inj h
      have hlength : ((digits.takeWhile Char.isDigit ++ ['0', '0']).take 3).length ≤ 3 :=
        List.length_take_le 3 _
      refine Nat.lt_of_lt_of_le (decimal_lt fun c hc => ?_)
        (Nat.pow_le_pow_right (by decide) hlength)
      rcases List.mem_append.1 (List.mem_of_mem_take hc) with hc | hc
      · exact List.all_eq_true.1 List.all_takeWhile c hc
      · obtain rfl : c = '0' := by simpa using hc
        decide
  · obtain ⟨rfl, -⟩ := Prod.mk.injEq .. ▸ Option.some.inj h
    decide

lemma hoursAndMinutes_dvd {cs : List Char} {offset : ℤ}
    (h : ((digits? 2 cs).bind fun hours => (after? ':' hours.2).bind fun rest =>
      (digits? 2 rest).bind fun minutes =>
        if hours.1 ≤ 23 ∧ minutes.1 ≤ 59 ∧ minutes.2.isEmpty then
          some ((hours.1 : ℤ) * 3600 + minutes.1 * 60)
        else none) = some offset) : 60 ∣ offset := by
  obtain ⟨hours, -, h⟩ := Option.bind_eq_some_iff.1 h
  obtain ⟨rest, -, h⟩ := Option.bind_eq_some_iff.1 h
  obtain ⟨minutes, -, h⟩ := Option.bind_eq_some_iff.1 h
  obtain ⟨-, h⟩ := Option.ite_none_right_eq_some.1 h
  rw [← Option.some.inj h]
  omega

/-- Offsets are whole minutes. -/
lemma offset?_dvd {cs : List Char} {offset : ℤ} (h : offset? cs = some offset) : 60 ∣ offset := by
  unfold offset? at h
  dsimp only at h
  split at h
  · exact Option.some.inj h ▸ Int.dvd_zero 60
  · exact Option.some.inj h ▸ Int.dvd_zero 60
  · exact hoursAndMinutes_dvd h
  · obtain ⟨seconds, hseconds, rfl⟩ := Option.map_eq_some_iff.1 h
    exact Int.dvd_neg.2 (hoursAndMinutes_dvd hseconds)
  · obtain ⟨seconds, hseconds, rfl⟩ := Option.map_eq_some_iff.1 h
    exact Int.dvd_neg.2 (hoursAndMinutes_dvd hseconds)
  · simp at h

/-- An instant that a timestamp names is its date and time, less an offset of whole minutes. -/
lemma exists_of_parse? (h : parse? s = some i) :
    ∃ (days offset : ℤ) (hour minute second millis : ℕ), 60 ∣ offset ∧ second ≤ 60 ∧ millis < 1000
      ∧ i = ⟨days * 86400 + (hour * 3600 + minute * 60 + (min second 59 : ℕ) - offset),
        millis + if second = 60 then 1000 else 0⟩ := by
  unfold parse? at h
  obtain ⟨⟨year, _⟩, -, h⟩ := Option.bind_eq_some_iff.1 h
  obtain ⟨_, -, h⟩ := Option.bind_eq_some_iff.1 h
  obtain ⟨⟨month, _⟩, -, h⟩ := Option.bind_eq_some_iff.1 h
  obtain ⟨_, -, h⟩ := Option.bind_eq_some_iff.1 h
  obtain ⟨⟨day, _⟩, -, h⟩ := Option.bind_eq_some_iff.1 h
  dsimp only at h
  split at h
  · split at h
    · obtain ⟨_, -, h⟩ := Option.bind_eq_some_iff.1 h
      obtain ⟨⟨hour, _⟩, -, h⟩ := Option.bind_eq_some_iff.1 h
      obtain ⟨_, -, h⟩ := Option.bind_eq_some_iff.1 h
      obtain ⟨⟨minute, _⟩, -, h⟩ := Option.bind_eq_some_iff.1 h
      obtain ⟨_, -, h⟩ := Option.bind_eq_some_iff.1 h
      obtain ⟨⟨second, _⟩, -, h⟩ := Option.bind_eq_some_iff.1 h
      obtain ⟨⟨millis, _⟩, hmillis, h⟩ := Option.bind_eq_some_iff.1 h
      obtain ⟨offset, hoffset, h⟩ := Option.bind_eq_some_iff.1 h
      obtain ⟨hvalid, h⟩ := Option.ite_none_right_eq_some.1 h
      exact ⟨dayNumber year month day, offset, hour, minute, second, millis, offset?_dvd hoffset,
        hvalid.2.2.2.2.2.2, fraction?_lt hmillis, (Option.some.inj h).symm⟩
    · obtain ⟨_, hnone, -⟩ := Option.bind_eq_some_iff.1 h
      simp at hnone
  · obtain ⟨_, hnone, -⟩ := Option.bind_eq_some_iff.1 h
    simp at hnone

lemma isProper_of_parse? (h : parse? s = some i) : i.IsProper := by
  obtain ⟨days, offset, hour, minute, second, millis, hoffset, hsecond, hmillis, rfl⟩ :=
    exists_of_parse? h
  by_cases hleap : second = 60
  · subst hleap
    have hlast : (min 60 59 : ℕ) = 59 := by decide
    rw [if_pos rfl, hlast, IsProper]
    dsimp only
    omega
  · refine Or.inl ?_
    rwa [if_neg hleap, Nat.add_zero]

/-! ## Milliseconds -/

/-- The seconds of the years 0 to 9999. -/
lemma hasPlainYear_iff :
    i.HasPlainYear ↔ -62167219200 ≤ i.seconds ∧ i.seconds ≤ 253402300799 := by
  rw [HasPlainYear, year, year_dateOf_mem_iff]
  omega

section Milliseconds

variable {millis : ℤ}

lemma eq_of_ofMillis? (h : ofMillis? millis = some i) :
    i = ⟨millis / 1000, (millis % 1000).toNat⟩ :=
  (Option.some.inj (Option.ite_none_right_eq_some.1 h).2).symm

lemma isProper_of_ofMillis? (h : ofMillis? millis = some i) : i.IsProper := by
  rw [eq_of_ofMillis? h]
  refine Or.inl ?_
  dsimp only
  omega

/-- An instant found by milliseconds lies that many after the start of 1970. -/
lemma epochMillis_of_ofMillis? (h : ofMillis? millis = some i) : i.epochMillis = millis := by
  rw [eq_of_ofMillis? h, epochMillis]
  dsimp only
  omega

/-- The milliseconds of the years 0 to 9999. -/
lemma hasPlainYear_of_ofMillis? (h : ofMillis? millis = some i) :
    i.HasPlainYear ↔ -62167219200000 ≤ millis ∧ millis ≤ 253402300799999 := by
  rw [eq_of_ofMillis? h, hasPlainYear_iff]
  dsimp only
  omega

end Milliseconds

end SchemaAlgebra.Instant
