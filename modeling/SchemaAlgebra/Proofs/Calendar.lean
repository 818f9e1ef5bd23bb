import Mathlib.Data.Int.Order.Basic
import SchemaAlgebra.Instant

/-!
# Days and dates

Four hundred years of the calendar are an era of 146097 days.  Counted from March, the leap day is the
last of a span of four years, and only a century that ends an era ends with one.  A day is placed in this
scheme (`Instant.CalendarDay`), and both ways between numbers and dates are read off there.

* `Instant.dateOf_exists` — the date of a day exists: its month is one of twelve, which has that day.
* **`Instant.dayNumber_dateOf`** — it is the date of no other day.
* `Instant.year_dateOf_mem_iff` — the days whose years have up to four digits.
-/

namespace SchemaAlgebra.Instant

/-- **A day in the calendar**, placed by era, century, span of four years, year, and the day since the
first of March, all counted from zero. -/
structure CalendarDay where
  /-- The era of four hundred years. -/
  era : ℤ
  /-- The century of the era. -/
  century : ℤ
  /-- The span of four years in the century. -/
  span : ℤ
  /-- The year of the span. -/
  year : ℤ
  /-- The day of the year. -/
  day : ℤ
  century_mem : 0 ≤ century ∧ century ≤ 3
  span_mem : 0 ≤ span ∧ span ≤ 24
  year_mem : 0 ≤ year ∧ year ≤ 3
  day_mem : 0 ≤ day ∧ day ≤ 365
  /-- A leap day ends a span, and a century only if it ends an era too. -/
  leap : day = 365 → year = 3 ∧ (span = 24 → century = 3)

namespace CalendarDay

/-- The days of its era that lie before it. -/
def dayOfEra (d : CalendarDay) : ℤ :=
  36524 * d.century + 1461 * d.span + 365 * d.year + d.day

/-- The years of its era that lie before it. -/
def yearOfEra (d : CalendarDay) : ℤ :=
  100 * d.century + 4 * d.span + d.year

/-- The days from the start of 1970 to it. -/
def number (d : CalendarDay) : ℤ :=
  146097 * d.era + d.dayOfEra - 719468

/-- The months since March. -/
def monthsSince (d : CalendarDay) : ℤ :=
  (5 * d.day + 2) / 153

/-- The month. -/
def month (d : CalendarDay) : ℤ :=
  if d.monthsSince < 10 then d.monthsSince + 3 else d.monthsSince - 9

/-- The day of the month. -/
def dayOfMonth (d : CalendarDay) : ℤ :=
  d.day - (153 * d.monthsSince + 2) / 5 + 1

/-- The year, which changes in January. -/
def calendarYear (d : CalendarDay) : ℤ :=
  d.era * 400 + d.yearOfEra + if d.month ≤ 2 then 1 else 0

variable (d : CalendarDay)

/-! ## Numbers -/

/-- Every day has its place. -/
lemma exists_number_eq (n : ℤ) : ∃ d : CalendarDay, d.number = n := by
  -- the last day of an era would begin a fifth century, and that of a span a fifth year
  let dayOfEra := (n + 719468) % 146097
  let century := min (dayOfEra / 36524) 3
  let dayOfCentury := dayOfEra - 36524 * century
  let year := min (dayOfCentury % 1461 / 365) 3
  refine ⟨⟨(n + 719468) / 146097, century, dayOfCentury / 1461, year,
    dayOfCentury % 1461 - 365 * year, ?_, ?_, ?_, ?_, ?_⟩, ?_⟩
  all_goals
    simp only [number, CalendarDay.dayOfEra, dayOfEra, century, dayOfCentury, year]
    omega

lemma dayOfEra_mem : 0 ≤ d.dayOfEra ∧ d.dayOfEra < 146097 := by
  have hcentury := d.century_mem
  have hspan := d.span_mem
  have hyear := d.year_mem
  have hday := d.day_mem
  have hleap := d.leap
  rw [dayOfEra]
  omega

lemma dayOfEra_centuries : d.dayOfEra / 36524 - d.dayOfEra / 146096 = d.century := by
  obtain ⟨era, century, span, year, day, hcentury, hspan, hyear, hday, hleap⟩ := d
  dsimp only [dayOfEra]
  obtain ⟨rest, hrest⟩ : ∃ rest, rest = 1461 * span + 365 * year + day := ⟨_, rfl⟩
  have hsum : 36524 * century + 1461 * span + 365 * year + day = 36524 * century + rest := by omega
  rw [hsum]
  by_cases hlast : rest = 36524
  · have hera : century = 3 := by omega
    omega
  · have hcenturies : (36524 * century + rest) / 36524 = century := by omega
    omega

/-- Spans of 1460 days run ahead of the calendar, by up to one span in an era. -/
lemma exists_dayOfEra_spans : ∃ ahead, d.dayOfEra / 1460 = 25 * d.century + d.span + ahead
    ∧ 0 ≤ d.day - ahead ∧ d.day - ahead ≤ 364 := by
  obtain ⟨era, century, span, year, day, hcentury, hspan, hyear, hday, hleap⟩ := d
  dsimp only [dayOfEra]
  by_cases hahead : 1460 ≤ 24 * century + span + 365 * year + day
  · exact ⟨1, by omega, by omega, by omega⟩
  · exact ⟨0, by omega, by omega, by omega⟩

/-- The leap days of an era taken out, a year is 365 days. -/
lemma yearOfEra_eq : (d.dayOfEra - d.dayOfEra / 1460 + d.dayOfEra / 36524 - d.dayOfEra / 146096) / 365
    = d.yearOfEra := by
  have hcenturies := d.dayOfEra_centuries
  obtain ⟨ahead, hspans, hlow, hhigh⟩ := d.exists_dayOfEra_spans
  have hvalue : d.dayOfEra - d.dayOfEra / 1460 + d.dayOfEra / 36524 - d.dayOfEra / 146096
      = 365 * d.yearOfEra + (d.day - ahead) := by
    rw [dayOfEra] at *
    rw [yearOfEra]
    omega
  rw [hvalue]
  omega

lemma leapDays_eq : d.yearOfEra / 4 - d.yearOfEra / 100 = 24 * d.century + d.span := by
  have hspan := d.span_mem
  have hyear := d.year_mem
  rw [yearOfEra]
  omega

lemma dayOfYear_eq :
    d.dayOfEra - (365 * d.yearOfEra + d.yearOfEra / 4 - d.yearOfEra / 100) = d.day := by
  have hleapDays := d.leapDays_eq
  rw [dayOfEra]
  rw [yearOfEra] at *
  omega

lemma yearOfEra_mem : 0 ≤ d.yearOfEra ∧ d.yearOfEra ≤ 399 := by
  have hcentury := d.century_mem
  have hspan := d.span_mem
  have hyear := d.year_mem
  rw [yearOfEra]
  omega

/-! ## Dates -/

lemma monthsSince_mem : 0 ≤ d.monthsSince ∧ d.monthsSince ≤ 11 := by
  have hday := d.day_mem
  rw [monthsSince]
  omega

lemma month_mem : 1 ≤ d.month ∧ d.month ≤ 12 := by
  have hmonths := d.monthsSince_mem
  rw [month]
  split <;> omega

/-- The date of a day is read off its place. -/
lemma dateOf_number :
    dateOf d.number = (d.calendarYear, d.month.toNat, d.dayOfMonth.toNat) := by
  have hera : (d.number + 719468) / 146097 = d.era := by
    have hdayOfEra := d.dayOfEra_mem
    rw [number]
    omega
  have hrest : (d.number + 719468) % 146097 = d.dayOfEra := by
    have hdayOfEra := d.dayOfEra_mem
    rw [number]
    omega
  simp only [dateOf, hera, hrest, yearOfEra_eq, dayOfYear_eq]
  rfl

lemma dayOfMonth_pos : 1 ≤ d.dayOfMonth := by
  have hday := d.day_mem
  rw [dayOfMonth, monthsSince]
  omega

/-- The number of a day is found from its date. -/
lemma dayNumber_date : dayNumber d.calendarYear d.month.toNat d.dayOfMonth.toNat = d.number := by
  have hmonth := d.month_mem
  have hmonths := d.monthsSince_mem
  have hday := d.dayOfMonth_pos
  have hyears := d.yearOfEra_mem
  have hyear : (if d.month.toNat ≤ 2 then d.calendarYear - 1 else d.calendarYear)
      = d.era * 400 + d.yearOfEra := by
    rw [calendarYear]
    split_ifs <;> omega
  have hmonthsSince : (if d.month.toNat ≤ 2 then (d.month.toNat : ℤ) + 9 else d.month.toNat - 3)
      = d.monthsSince := by
    rw [month] at *
    split_ifs at * <;> omega
  have hera : (d.era * 400 + d.yearOfEra) / 400 = d.era := by omega
  have hyearOfEra : (d.era * 400 + d.yearOfEra) % 400 = d.yearOfEra := by omega
  have hdayOfYear : (153 * d.monthsSince + 2) / 5 + (d.dayOfMonth.toNat : ℤ) - 1 = d.day := by
    rw [Int.toNat_of_nonneg (by omega), dayOfMonth]
    omega
  simp only [dayNumber, hyear, hmonthsSince, hera, hyearOfEra, hdayOfYear]
  have hdayOfEra := d.dayOfYear_eq
  rw [number]
  omega

/-- A month has at most thirty or thirty-one days. -/
lemma dayOfMonth_le :
    d.dayOfMonth ≤ if d.monthsSince = 1 ∨ d.monthsSince = 3 ∨ d.monthsSince = 6 ∨ d.monthsSince = 8
      then 30 else 31 := by
  have hday := d.day_mem
  rw [dayOfMonth]
  rw [monthsSince] at *
  split_ifs <;> omega

lemma isLeapYear_of_leap (h : d.day = 365) : isLeapYear d.calendarYear = true := by
  have hspan := d.span_mem
  obtain ⟨hyear, hcentury⟩ := d.leap h
  have hmonth : d.month ≤ 2 := by
    rw [month, monthsSince, h]
    decide
  have hcalendar : d.calendarYear = 400 * d.era + 100 * d.century + 4 * (d.span + 1) := by
    rw [calendarYear, if_pos hmonth, yearOfEra, hyear]
    omega
  have hfour : d.calendarYear % 4 = 0 := by omega
  have hhundred : d.calendarYear % 100 ≠ 0 ∨ d.calendarYear % 400 = 0 := by omega
  simpa [isLeapYear, hfour] using hhundred

/-- The month of a day has this day. -/
lemma dayOfMonth_le_daysInMonth :
    d.dayOfMonth.toNat ≤ daysInMonth d.calendarYear d.month.toNat := by
  have hmonths := d.monthsSince_mem
  have hday := d.day_mem
  by_cases hlast : d.monthsSince ≤ 10
  · have hle := d.dayOfMonth_le
    rw [daysInMonth, month]
    split_ifs at * <;> omega
  · have hmonth : d.month.toNat = 2 := by
      rw [month]
      split_ifs <;> omega
    have hdayOfMonth : d.dayOfMonth = d.day - 336 := by
      rw [dayOfMonth]
      omega
    rw [daysInMonth, if_pos hmonth]
    by_cases hleap : d.day = 365
    · rw [if_pos (d.isLeapYear_of_leap hleap)]
      omega
    · split_ifs <;> omega

/-- The last sixty days of an era lie in the January and the February that end it. -/
lemma le_dayOfEra_iff : 146037 ≤ d.dayOfEra ↔ d.yearOfEra = 399 ∧ 306 ≤ d.day := by
  have hcentury := d.century_mem
  have hspan := d.span_mem
  have hyear := d.year_mem
  have hday := d.day_mem
  have hleap := d.leap
  rw [dayOfEra, yearOfEra]
  omega

/-- The years of up to four digits run from the start of year 0 to the end of year 9999. -/
lemma calendarYear_mem_iff : 0 ≤ d.calendarYear ∧ d.calendarYear ≤ 9999
    ↔ -719528 ≤ d.number ∧ d.number ≤ 2932896 := by
  have hyears := d.yearOfEra_mem
  have hdays := d.dayOfEra_mem
  have hend := d.le_dayOfEra_iff
  have hday := d.day_mem
  have hmonth : d.month ≤ 2 ↔ 306 ≤ d.day := by
    rw [month, monthsSince]
    split_ifs <;> omega
  rw [calendarYear, number]
  split_ifs <;> omega

end CalendarDay

/-! ## All days -/

/-- The date of a day exists. -/
theorem dateOf_exists (n : ℤ) : (1 ≤ (dateOf n).2.1 ∧ (dateOf n).2.1 ≤ 12)
    ∧ 1 ≤ (dateOf n).2.2 ∧ (dateOf n).2.2 ≤ daysInMonth (dateOf n).1 (dateOf n).2.1 := by
  obtain ⟨d, rfl⟩ := CalendarDay.exists_number_eq n
  have hmonth := d.month_mem
  have hday := d.dayOfMonth_pos
  rw [d.dateOf_number]
  exact ⟨⟨by dsimp only; omega, by dsimp only; omega⟩, by dsimp only; omega,
    d.dayOfMonth_le_daysInMonth⟩

/-- **A date** names the day that it is the date of. -/
theorem dayNumber_dateOf (n : ℤ) :
    dayNumber (dateOf n).1 (dateOf n).2.1 (dateOf n).2.2 = n := by
  obtain ⟨d, rfl⟩ := CalendarDay.exists_number_eq n
  rw [d.dateOf_number]
  exact d.dayNumber_date

/-- The days of the years 0 to 9999. -/
theorem year_dateOf_mem_iff (n : ℤ) :
    0 ≤ (dateOf n).1 ∧ (dateOf n).1 ≤ 9999 ↔ -719528 ≤ n ∧ n ≤ 2932896 := by
  obtain ⟨d, rfl⟩ := CalendarDay.exists_number_eq n
  rw [d.dateOf_number]
  exact d.calendarYear_mem_iff

end SchemaAlgebra.Instant
