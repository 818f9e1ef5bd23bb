/-!
# Numerals

Numbers written in digits, without sign or separators.

* `Numeral.decimal` — the number that decimal digits write; `Numeral.decimal_toDigits` says that it
  is the number whose digits they are.
* `Numeral.digit?`, `Numeral.read?` — a digit of any base up to thirty-six, and a number in that
  base.
-/

namespace SchemaAlgebra.Numeral

/-- The number that decimal digits write; no digits write zero. -/
def decimal (digits : List Char) : Nat :=
  Nat.ofDigitChars 10 digits 0

/-- The digits of a number write that number. -/
@[simp] theorem decimal_toDigits (n : Nat) : decimal (Nat.toDigits 10 n) = n :=
  Nat.ofDigitChars_toDigits (by decide) (by decide)

/-- The value of a digit in a base.  Letters of either case go on from nine. -/
def digit? (base : Nat) (c : Char) : Option Nat :=
  let value :=
    if c.isDigit then c.toNat - 48
    else if 'a' ≤ c ∧ c ≤ 'z' then c.toNat - 87
    else if 'A' ≤ c ∧ c ≤ 'Z' then c.toNat - 55
    else base
  if value < base then some value else none

/-- The number that some characters write in a base, if all of them are digits and there is one. -/
def read? (base : Nat) (cs : List Char) : Option Nat :=
  if cs.isEmpty then none
  else (cs.mapM (digit? base)).map fun digits => digits.foldl (fun n d => n * base + d) 0

end SchemaAlgebra.Numeral
