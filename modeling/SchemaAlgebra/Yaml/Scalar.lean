import SchemaAlgebra.Json.Parser

/-!
# Scalars of YAML

A scalar in quotes is text.  A plain one is null, a truth value, a number or text, by its spelling
(`Yaml.resolve?`).  A number with superfluous zeros in front is text.
-/

namespace SchemaAlgebra

namespace Yaml

/-! ## Plain scalars -/

/-- The number that digits write, with the base in front if it is not ten. -/
def natural? : List Char → Option Nat
  | '0' :: 'x' :: ds => Numeral.read? 16 ds
  | '0' :: 'o' :: ds => Numeral.read? 8 ds
  | '0' :: 'b' :: ds => Numeral.read? 2 ds
  | ds => Numeral.read? 10 ds

/-- Whether these are digits with superfluous zeros in front. -/
def isPadded (digits : List Char) : Bool :=
  1 < digits.length && digits.head? = some '0' && digits.all Char.isDigit

/-- The sign in front, and the rest. -/
def sign : List Char → Bool × List Char
  | '-' :: rest => (true, rest)
  | '+' :: rest => (false, rest)
  | cs => (false, cs)

/-- The decimal number that a text writes, with a fraction and an exponent if it has them. -/
def decimal? (negative : Bool) (cs : List Char) : Option Double := do
  let whole := cs.takeWhile Char.isDigit
  let rest := cs.dropWhile Char.isDigit
  let (fraction, rest) := match rest with
    | '.' :: rest => (rest.takeWhile Char.isDigit, rest.dropWhile Char.isDigit)
    | rest => ([], rest)
  let exponent : Int ← match rest with
    | [] => some 0
    | e :: rest =>
      if e = 'e' ∨ e = 'E' then
        let (down, digits) := sign rest
        (Numeral.read? 10 digits).map fun n => if down then -(n : Int) else n
      else none
  if whole.isEmpty && fraction.isEmpty then none
  else
    Double.ofDecimal? negative ((Numeral.read? 10 (whole ++ fraction)).getD 0)
      (exponent - fraction.length)

/-- The value of a plain scalar; `none` for an integer that no document can hold. -/
def resolve? (cs : List Char) : Option Json :=
  let text := String.ofList cs
  let (negative, magnitude) := sign cs
  let special := ["inf", "Inf", "INF", "nan", "NaN", "NAN"]
  if text ∈ ["", "null", "Null", "NULL", "~"] then some .null
  else if text ∈ ["true", "True", "TRUE"] then some (.bool true)
  else if text ∈ ["false", "False", "FALSE"] then some (.bool false)
  else if isPadded magnitude then some (.string text)
  else
    match natural? magnitude with
    | some n =>
      let value : Int := if negative then -n else n
      if Number.minInt ≤ value ∧ value ≤ Number.maxInt then
        some (if negative && n = 0 then .int 0 else .int value)
      else if -Nat.pow 2 127 ≤ value ∧ value < Nat.pow 2 128 then none
      else
        some (((decimal? negative magnitude).map fun d => Json.number (.double d)).getD
          (.string text))
    | none =>
      match magnitude with
      | '.' :: rest =>
        if special.contains (String.ofList rest) then some .null
        else
          some (((decimal? negative magnitude).map fun d => Json.number (.double d)).getD
            (.string text))
      | magnitude =>
        some (((decimal? negative magnitude).map fun d => Json.number (.double d)).getD
          (.string text))

/-! ## Quoted scalars -/

/-- The text up to the closing single quote, and what follows it. -/
def singleQuoted? : List Char → Option (List Char × List Char)
  | '\'' :: '\'' :: rest => (singleQuoted? rest).map fun (cs, rest) => ('\'' :: cs, rest)
  | '\'' :: rest => some ([], rest)
  | '\n' :: rest => (singleQuoted? rest).map fun (cs, rest) => (' ' :: cs, rest)
  | c :: rest => (singleQuoted? rest).map fun (cs, rest) => (c :: cs, rest)
  | [] => none

/-- The character that a letter after a backslash stands for. -/
def escaped? : Char → Option Char
  | '0' => some '\x00'
  | 'a' => some '\x07'
  | 'b' => some '\x08'
  | 't' | '\t' => some '\t'
  | 'n' => some '\n'
  | 'v' => some '\x0b'
  | 'f' => some '\x0c'
  | 'r' => some '\r'
  | 'e' => some '\x1b'
  | ' ' => some ' '
  | '"' => some '"'
  | '/' => some '/'
  | '\\' => some '\\'
  | 'N' => some '\u0085'
  | '_' => some '\u00a0'
  | _ => none

/-- The character with this code point, unless it is a surrogate. -/
def codePoint? (digits : List Char) : Option Char :=
  (Numeral.read? 16 digits).bind fun code =>
    if code.isValidChar then some (Char.ofNat code) else none

/-- The text up to the closing double quote, and what follows it. -/
def doubleQuoted? : List Char → Option (List Char × List Char)
  | '"' :: rest => some ([], rest)
  | '\\' :: 'x' :: a :: b :: rest => do
    let c ← codePoint? [a, b]
    (doubleQuoted? rest).map fun (cs, rest) => (c :: cs, rest)
  | '\\' :: 'u' :: a :: b :: c :: d :: rest => do
    let c ← codePoint? [a, b, c, d]
    (doubleQuoted? rest).map fun (cs, rest) => (c :: cs, rest)
  | '\\' :: '\n' :: rest => doubleQuoted? rest
  | '\\' :: c :: rest => do
    let c ← escaped? c
    (doubleQuoted? rest).map fun (cs, rest) => (c :: cs, rest)
  | '\n' :: rest => (doubleQuoted? rest).map fun (cs, rest) => (' ' :: cs, rest)
  | c :: rest => (doubleQuoted? rest).map fun (cs, rest) => (c :: cs, rest)
  | [] => none

/-- A scalar in quotes, and what follows it; the first result is `none` if there is none. -/
def quoted? : List Char → Option (Option (List Char) × List Char)
  | '"' :: rest => (doubleQuoted? rest).map fun (cs, rest) => (some cs, rest)
  | '\'' :: rest => (singleQuoted? rest).map fun (cs, rest) => (some cs, rest)
  | cs => some (none, cs)

end Yaml

end SchemaAlgebra
