/-!
# Binary64 numbers and their shortest decimals

A double is kept as its 64 bits, so it can be compared, hashed and decided like any other word; its
magnitude is `mantissa · 2 ^ exponent` (`Double.mantissa`, `Double.exponent`).

* `Double.shortest` — the fewest decimal digits that read back as the same double, and of those the
  nearest to it.  A decimal reads back exactly when it lies in the interval of reals that round to
  the double, so for each digit count the two neighbours of the double on that decimal grid are
  tested in exact arithmetic.
* `Double.ofDecimal?` — the double nearest to a decimal, or nothing where it would be infinite.
* `Double.ofScaled?` — an integer rounded to a double and then scaled by a power of ten, which costs
  a second rounding.
-/

namespace SchemaAlgebra

/-- A binary64 number, given by its bits.  Documents hold finite ones only. -/
structure Double where
  /-- Sign, eleven bits of exponent and fifty-two of fraction. -/
  bits : UInt64
deriving DecidableEq, Inhabited

namespace Double

/-- The eleven bits of biased exponent. -/
def exponentField (d : Double) : Nat :=
  (d.bits.toNat >>> 52) % 2048

/-- The fifty-two bits of fraction. -/
def fraction (d : Double) : Nat :=
  d.bits.toNat % Nat.pow 2 52

/-- Whether the sign bit is set, as it is for `-0.0` too. -/
def isNegative (d : Double) : Bool :=
  d.bits.toNat ≥ Nat.pow 2 63

/-- The integer `m` of the magnitude `m · 2 ^ q`. -/
def mantissa (d : Double) : Nat :=
  if d.exponentField = 0 then d.fraction else d.fraction + Nat.pow 2 52

/-- The exponent `q` of the magnitude `m · 2 ^ q`. -/
def exponent (d : Double) : Int :=
  if d.exponentField = 0 then -1074 else (d.exponentField : Int) - 1075

/-- Whether the magnitude is zero. -/
def isZero (d : Double) : Bool :=
  d.mantissa = 0

/-- Numeric equality of finite doubles: the same bits, or two zeros of any sign. -/
def same (a b : Double) : Bool :=
  a = b || (a.isZero && b.isZero)

/-- Whether the fraction part is zero. -/
def isIntegral (d : Double) : Bool :=
  0 ≤ d.exponent || d.mantissa % Nat.pow 2 (-d.exponent).toNat = 0

/-- The machine number with these bits. -/
def toFloat (d : Double) : Float :=
  Float.ofBits d.bits

/-- The bits of a machine number. -/
def ofFloat (x : Float) : Double :=
  ⟨x.toBits⟩

/-! ## Shortest decimals -/

/-- Compares `c · 10 ^ t` with `x · 2 ^ s` exactly. -/
def compareDecimal (c : Nat) (t : Int) (x : Nat) (s : Int) : Ordering :=
  compare (c * Nat.pow 10 t.toNat * Nat.pow 2 (-s).toNat)
    (x * Nat.pow 2 s.toNat * Nat.pow 10 (-t).toNat)

/-- The largest `c` with `c · 10 ^ t ≤ x · 2 ^ s`. -/
def floorDecimal (x : Nat) (s t : Int) : Nat :=
  x * Nat.pow 2 s.toNat * Nat.pow 10 (-t).toNat / (Nat.pow 10 t.toNat * Nat.pow 2 (-s).toNat)

/-- Whether the decimal `c · 10 ^ t` rounds to the positive double `d`: it lies between the middles
of `d` and its two neighbours, the ends included when the mantissa is even.  Below a power of two
the neighbour is only half as far away. -/
def readsBackFrom (d : Double) (c : Nat) (t : Int) : Bool :=
  let s := d.exponent - 2
  let low := if d.fraction = 0 ∧ 1 < d.exponentField then 4 * d.mantissa - 1 else 4 * d.mantissa - 2
  let high := 4 * d.mantissa + 2
  if d.mantissa % 2 = 0 then
    compareDecimal c t low s != .lt && compareDecimal c t high s != .gt
  else
    compareDecimal c t low s == .gt && compareDecimal c t high s == .lt

/-- The power of ten of the leading decimal digit of a positive double. -/
def decimalExponent (d : Double) : Int :=
  let estimate := ((d.mantissa.log2 : Int) + d.exponent) * 30103 / 100000
  if compareDecimal 1 (estimate + 1) d.mantissa d.exponent != .gt then estimate + 1
  else if compareDecimal 1 estimate d.mantissa d.exponent != .gt then estimate
  else estimate - 1

/-- Of the two neighbours of `d` with `n` decimal digits, the nearer one that reads back as `d`. -/
def neighbour? (d : Double) (n : Nat) : Option (Nat × Int) :=
  let t := d.decimalExponent - n + 1
  let c := floorDecimal d.mantissa d.exponent t
  let below := readsBackFrom d c t
  let above := readsBackFrom d (c + 1) t
  -- twice the middle of the two neighbours, against twice the double
  let nearer := compareDecimal (2 * c + 1) t (2 * d.mantissa) d.exponent
  match below, above with
  | true, true =>
    if nearer == .gt || (nearer == .eq && c % 2 = 0) then some (c, t) else some (c + 1, t)
  | true, false => some (c, t)
  | false, true => some (c + 1, t)
  | false, false => none

/-- Moves trailing zeros of `c` into the power of ten, at most `n` of them. -/
def dropZeros : Nat → Nat → Int → Nat × Int
  | 0, c, t => (c, t)
  | n + 1, c, t => if c ≠ 0 ∧ c % 10 = 0 then dropZeros n (c / 10) (t + 1) else (c, t)

/-- **Shortest digits.**  The pair `(c, t)` with the fewest digits in `c` such that the decimal
`c · 10 ^ t` reads back as the magnitude of `d`, and of those the nearest. -/
def shortest (d : Double) : Nat × Int :=
  if d.isZero then (0, 0)
  else
    let found := (List.range 17).findSome? fun n => neighbour? d (n + 1)
    let (c, t) := found.getD (floorDecimal d.mantissa d.exponent (d.decimalExponent - 16),
      d.decimalExponent - 16)
    dropZeros 17 c t

/-! ## Reading decimals -/

/-- The double nearest to `± digits · 10 ^ exponent`, or `none` where that is out of range.  Far
outside the range the answer is known without building the power of ten. -/
def ofDecimal? (negative : Bool) (digits : Nat) (exponent : Int) : Option Double :=
  let length : Int := (Nat.toDigits 10 digits).length
  let magnitude : Option Float :=
    if digits = 0 ∨ exponent + length < -400 then some 0.0
    else if exponent + length > 400 then none
    else
      let x := Float.ofScientific digits (exponent < 0) exponent.natAbs
      if x.isFinite then some x else none
  magnitude.map fun x => ofFloat (if negative then -x else x)

/-- A power of ten as a double; the greatest is `10 ^ 308`. -/
def powerOfTen (n : Nat) : Float :=
  Float.ofScientific 1 false n

/-- The double `x` scaled by a power of ten, or `none` where that is out of range.  No power below
`10 ^ -308` is a double's inverse, so such a scaling takes two divisions, and nothing below `2 ^ 64`
survives a third. -/
def scale? (x : Float) (power : Int) : Option Float :=
  if 308 < power then if x == 0.0 then some x else none
  else if 0 ≤ power then
    let y := x * powerOfTen power.toNat
    if y.isFinite then some y else none
  else if -308 ≤ power then some (x / powerOfTen power.natAbs)
  else if -616 ≤ power then some (x / powerOfTen 308 / powerOfTen (power + 308).natAbs)
  else some 0.0

/-- The number `± significand · 10 ^ power` for a significand of 64 bits, rounded when it becomes a
double and again when it is scaled. -/
def ofScaled? (negative : Bool) (significand : Nat) (power : Int) : Option Double :=
  (scale? (Float.ofScientific significand false 0) power).map fun x =>
    ofFloat (if negative then -x else x)

end Double

end SchemaAlgebra
