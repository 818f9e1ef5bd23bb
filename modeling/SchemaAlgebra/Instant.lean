import SchemaAlgebra.Numeral

/-!
# Instants and their written form

An instant is a second of the proleptic Gregorian calendar in UTC, counted from the start of 1970,
with a number of milliseconds.  A leap second is the second before it with a thousand milliseconds
or more.

* `Instant.parse?` — the instant a timestamp names: a date, a time, an optional fraction and an
  offset from UTC.
* `Instant.text` — an instant in UTC with three digits of milliseconds.  A year of other than four
  digits is written with a sign, and such a text names no instant.
-/

namespace SchemaAlgebra

/-- A moment in time, to the millisecond. -/
structure Instant where
  /-- Seconds since the start of 1970. -/
  seconds : Int
  /-- Milliseconds since that second; from 1000 on they belong to a leap second. -/
  millis : Nat
deriving DecidableEq, Inhabited

namespace Instant

/-! ## The calendar -/

/-- Whether a year has a 29th of February. -/
def isLeapYear (year : Int) : Bool :=
  year % 4 = 0 && (year % 100 != 0 || year % 400 = 0)

/-- How many days a month has. -/
def daysInMonth (year : Int) (month : Nat) : Nat :=
  if month = 2 then if isLeapYear year then 29 else 28
  else if month = 4 ∨ month = 6 ∨ month = 9 ∨ month = 11 then 30
  else 31

/-- The days from the start of 1970 to a date.  Years are counted from March, so that the leap day
is the last of its year. -/
def dayNumber (year : Int) (month day : Nat) : Int :=
  let y := if month ≤ 2 then year - 1 else year
  let m : Int := if month ≤ 2 then month + 9 else month - 3
  let era := y / 400
  let yearOfEra := y % 400
  let dayOfYear := (153 * m + 2) / 5 + day - 1
  era * 146097 + yearOfEra * 365 + yearOfEra / 4 - yearOfEra / 100 + dayOfYear - 719468

/-- The date that lies this many days after the start of 1970. -/
def dateOf (days : Int) : Int × Nat × Nat :=
  let shifted := days + 719468
  let era := shifted / 146097
  let dayOfEra := shifted % 146097
  let yearOfEra :=
    (dayOfEra - dayOfEra / 1460 + dayOfEra / 36524 - dayOfEra / 146096) / 365
  let dayOfYear := dayOfEra - (365 * yearOfEra + yearOfEra / 4 - yearOfEra / 100)
  let m := (5 * dayOfYear + 2) / 153
  let day := dayOfYear - (153 * m + 2) / 5 + 1
  let month := if m < 10 then m + 3 else m - 9
  let year := era * 400 + yearOfEra + (if month ≤ 2 then 1 else 0)
  (year, month.toNat, day.toNat)

/-! ## Milliseconds -/

/-- Milliseconds since the start of 1970. -/
def epochMillis (i : Instant) : Int :=
  i.seconds * 1000 + i.millis

/-- The least number of milliseconds that names an instant. -/
def leastMillis : Int := -8334601228800000

/-- The greatest number of milliseconds that names an instant. -/
def greatestMillis : Int := 8210266876799999

/-- The instant this many milliseconds after the start of 1970. -/
def ofMillis? (millis : Int) : Option Instant :=
  if leastMillis ≤ millis ∧ millis ≤ greatestMillis then
    some ⟨millis / 1000, (millis % 1000).toNat⟩
  else none

/-! ## Writing -/

/-- A number with at least `width` digits. -/
def padded (width n : Nat) : String :=
  let ds := Nat.toDigits 10 n
  String.ofList (List.replicate (width - ds.length) '0' ++ ds)

/-- A year of four digits, or with its sign and at least four. -/
def yearText (year : Int) : String :=
  if 0 ≤ year ∧ year ≤ 9999 then padded 4 year.toNat
  else (if year < 0 then "-" else "+") ++ padded 4 year.natAbs

/-- The written form in UTC. -/
def text (i : Instant) : String :=
  let (year, month, day) := dateOf (i.seconds / 86400)
  let secondOfDay := (i.seconds % 86400).toNat
  let second := secondOfDay % 60 + i.millis / 1000
  yearText year ++ "-" ++ padded 2 month ++ "-" ++ padded 2 day
    ++ "T" ++ padded 2 (secondOfDay / 3600) ++ ":" ++ padded 2 (secondOfDay / 60 % 60)
    ++ ":" ++ padded 2 second ++ "." ++ padded 3 (i.millis % 1000) ++ "Z"

/-! ## Reading -/

/-- The number written by exactly `n` digits, and what follows them. -/
def digits? : Nat → List Char → Option (Nat × List Char)
  | n, cs =>
    let ds := cs.take n
    if ds.length = n ∧ ds.all Char.isDigit then
      some (Numeral.decimal ds, cs.drop n)
    else none

/-- What follows the character `c`. -/
def after? (c : Char) : List Char → Option (List Char)
  | d :: rest => if d = c then some rest else none
  | [] => none

/-- The milliseconds of an optional fraction of at least one digit; digits beyond the third are cut
off. -/
def fraction? : List Char → Option (Nat × List Char)
  | '.' :: rest =>
    let ds := rest.takeWhile Char.isDigit
    if ds.isEmpty then none
    else
      let millis := (ds ++ ['0', '0']).take 3
      some (Numeral.decimal millis, rest.dropWhile Char.isDigit)
  | cs => some (0, cs)

/-- The seconds of the offset from UTC that ends a timestamp.  Its sign may be a hyphen or a minus
sign. -/
def offset? (cs : List Char) : Option Int :=
  let hoursAndMinutes (cs : List Char) : Option Int := do
    let (hours, cs) ← digits? 2 cs
    let cs ← after? ':' cs
    let (minutes, cs) ← digits? 2 cs
    if hours ≤ 23 ∧ minutes ≤ 59 ∧ cs.isEmpty then return hours * 3600 + minutes * 60
    else none
  match cs with
  | ['Z'] => some 0
  | ['z'] => some 0
  | '+' :: rest => hoursAndMinutes rest
  | '-' :: rest | '−' :: rest => (hoursAndMinutes rest).map fun seconds => -seconds
  | _ => none

/-- The instant that a timestamp names. -/
def parse? (s : String) : Option Instant := do
  let (year, cs) ← digits? 4 s.toList
  let (month, cs) ← digits? 2 (← after? '-' cs)
  let (day, cs) ← digits? 2 (← after? '-' cs)
  let cs ← match cs with
    | c :: rest => if c = 'T' ∨ c = 't' ∨ c = ' ' then some rest else none
    | [] => none
  let (hour, cs) ← digits? 2 cs
  let (minute, cs) ← digits? 2 (← after? ':' cs)
  let (second, cs) ← digits? 2 (← after? ':' cs)
  let (millis, cs) ← fraction? cs
  let offset ← offset? cs
  if 1 ≤ month ∧ month ≤ 12 ∧ 1 ≤ day ∧ day ≤ daysInMonth year month
      ∧ hour ≤ 23 ∧ minute ≤ 59 ∧ second ≤ 60 then
    let time : Int := hour * 3600 + minute * 60 + (min second 59 : Nat) - offset
    let leap := if second = 60 then 1000 else 0
    return ⟨dayNumber year month day * 86400 + time, millis + leap⟩
  else none

end Instant

end SchemaAlgebra
