import SchemaAlgebra.Json.Double

/-!
# Numbers of a document

A number is an integer or a double, and stays what it was written as: `1` and `1.0` are two values,
with two texts.  An integer lies between `-2 ^ 63` and `2 ^ 64 - 1`; a literal beyond that range is
read as a double.

* `Number.same` — equality of values: integers among themselves, doubles among themselves.
* `Number.compareValue` — the order of the numbers meant, exact also between the two forms.
* `Number.equivalent` — equality of the nearest doubles, under which `1` and `1.0` are equal.
-/

namespace SchemaAlgebra

/-- A number, in the form it was written in. -/
inductive Number where
  /-- An integer. -/
  | int (value : Int)
  /-- A number written with a fraction or an exponent, or out of the range of integers. -/
  | double (value : Double)
deriving DecidableEq, Inhabited

namespace Number

/-- The least integer that is kept as one. -/
def minInt : Int := -Nat.pow 2 63

/-- The greatest integer that is kept as one. -/
def maxInt : Int := Nat.pow 2 64 - 1

/-- Equality of values: the form counts, the sign of zero does not. -/
def same : Number → Number → Bool
  | int a, int b => a = b
  | double a, double b => a.same b
  | _, _ => false

/-- The nearest machine number. -/
def toFloat : Number → Float
  | int value => Float.ofInt value
  | double value => value.toFloat

/-- Equality of the nearest doubles. -/
def equivalent (a b : Number) : Bool :=
  a.toFloat == b.toFloat

/-- The value as `m · 2 ^ q`. -/
def scaled : Number → Int × Int
  | int value => (value, 0)
  | double value => (if value.isNegative then -value.mantissa else value.mantissa, value.exponent)

/-- The exact order of the numbers meant. -/
def compareValue (a b : Number) : Ordering :=
  let (m, q) := a.scaled
  let (n, r) := b.scaled
  let low := min q r
  compare (m * Nat.pow 2 (q - low).toNat) (n * Nat.pow 2 (r - low).toNat)

/-- Whether the number meant is an integer. -/
def isIntegral : Number → Bool
  | int _ => true
  | double value => value.isIntegral

/-- The integer meant, if there is one. -/
def toInt? : Number → Option Int
  | int value => some value
  | double value =>
    if value.isIntegral then
      let magnitude : Int :=
        value.mantissa * Nat.pow 2 value.exponent.toNat / Nat.pow 2 (-value.exponent).toNat
      some (if value.isNegative then -magnitude else magnitude)
    else none

/-! ## Tolerance -/

/-- The distance between one and the next greater double. -/
def epsilon : Float := Float.ofScientific 2220446049250313 true 31

/-- Whether the nearest doubles differ by less than `epsilon`. -/
def isNear (a b : Number) : Bool :=
  (a.toFloat - b.toFloat).abs < epsilon

/-- Whether one decimal is a multiple of another, each given by its digits and its power of ten. -/
def isDecimalMultiple (item divisor : Nat × Int) : Bool :=
  item.1 * Nat.pow 10 (item.2 - divisor.2).toNat %
    (divisor.1 * Nat.pow 10 (divisor.2 - item.2).toNat) = 0

/-- Whether the nearest double of a number is a multiple of that of another.  An integral divisor is
tested exactly; otherwise the quotient must not exceed an integer, towards zero, by `epsilon`, and
where it is out of range the shortest decimals decide. -/
def isMultipleOf (n divisor : Number) : Bool :=
  let item := Double.ofFloat n.toFloat
  let step := Double.ofFloat divisor.toFloat
  if step.isIntegral then
    match (double item).toInt?, (double step).toInt? with
    | some a, some b => a % b = 0
    | _, _ => false
  else
    let quotient := item.toFloat / step.toFloat
    if quotient.isFinite then
      quotient - (if quotient < 0 then quotient.ceil else quotient.floor) < epsilon
    else isDecimalMultiple item.shortest step.shortest

end Number

end SchemaAlgebra
