import SchemaAlgebra.Json.Basic
import SchemaAlgebra.Numeral

/-!
# Reading JSON

A text is split into tokens, and the tokens are read as one value.  Reading is strict: no comments,
no trailing commas, no leading zeros, escapes of lone surrogates refused, and containers nested at
most `maxDepth` deep.  Of members with one key the last one stays.

* `Json.Token.scan?` — the tokens of a text.
* `Json.parse?` — the value written in a text, if the text is the text of one value.
-/

namespace SchemaAlgebra

namespace Json

/-- A token of a JSON text. -/
inductive Token where
  | openBrace
  | closeBrace
  | openBracket
  | closeBracket
  | colon
  | comma
  | string (s : String)
  /-- A literal name or a number. -/
  | scalar (value : Json)
deriving Inhabited

namespace Token

/-- Blanks between tokens. -/
def isBlank (c : Char) : Bool :=
  c = ' ' || c = '\n' || c = '\r' || c = '\t'

/-! ## Numbers -/

/-- The characters a number may consist of. -/
def isNumberChar (c : Char) : Bool :=
  c.isDigit || c = '-' || c = '+' || c = '.' || c = 'e' || c = 'E'

/-- The exponent at the end of a number. -/
def exponent? : List Char → Option Int
  | [] => some 0
  | c :: rest =>
    if c = 'e' ∨ c = 'E' then
      let (negative, ds) := match rest with
        | '-' :: ds => (true, ds)
        | '+' :: ds => (false, ds)
        | ds => (false, ds)
      if ds.isEmpty || !ds.all Char.isDigit then none
      else
        let magnitude : Int := Numeral.decimal ds
        some (if negative then -magnitude else magnitude)
    else none

/-- Appends digits to a number while it fits into 64 bits: the number, and the digits left over. -/
def appendDigits (n : Nat) : List Char → Nat × List Char
  | [] => (n, [])
  | d :: ds =>
    let longer := n * 10 + (d.toNat - 48)
    if longer < Nat.pow 2 64 then appendDigits longer ds else (n, d :: ds)

/-- The double written by digits before and after the point and an exponent.  Digits that no longer
fit into 64 bits count as zeros. -/
def double? (negative : Bool) (whole fraction : List Char) (power : Int) : Option Double :=
  let (n, dropped) := appendDigits 0 whole
  let (significand, unread) := appendDigits n fraction
  Double.ofScaled? negative significand
    (power + dropped.length - (fraction.length - unread.length : Nat))

/-- The number written in `cs`.  Without fraction and exponent it is an integer while it is in
range; the integer zero has no sign, so `-0` is a double. -/
def number? (cs : List Char) : Option Number :=
  let (negative, unsigned) := match cs with
    | '-' :: rest => (true, rest)
    | rest => (false, rest)
  let whole := unsigned.takeWhile Char.isDigit
  let rest := unsigned.dropWhile Char.isDigit
  let wholeOk := match whole with
    | [] => false
    | ['0'] => true
    | first :: _ => first != '0'
  if !wholeOk then none
  else
    match rest with
    | [] =>
      let magnitude : Int := Numeral.decimal whole
      let value := if negative then -magnitude else magnitude
      if (negative ∧ magnitude = 0) ∨ value < Number.minInt ∨ Number.maxInt < value then
        (double? negative whole [] 0).map .double
      else some (.int value)
    | '.' :: tail =>
      let fraction := tail.takeWhile Char.isDigit
      if fraction.isEmpty then none
      else do
        let power ← exponent? (tail.dropWhile Char.isDigit)
        return .double (← double? negative whole fraction power)
    | tail => do
      let power ← exponent? tail
      return .double (← double? negative whole [] power)

/-! ## Strings -/

/-- The character an escape of one letter stands for. -/
def shortEscape? (c : Char) : Option Char :=
  match c with
  | '"' => some '"'
  | '\\' => some '\\'
  | '/' => some '/'
  | 'b' => some (Char.ofNat 8)
  | 'f' => some (Char.ofNat 12)
  | 'n' => some '\n'
  | 'r' => some '\r'
  | 't' => some '\t'
  | _ => none

/-- Whether a code unit is the first half of a surrogate pair. -/
def isHighSurrogate (n : Nat) : Bool := 0xD800 ≤ n && n < 0xDC00

/-- Whether a code unit is the second half of a surrogate pair. -/
def isLowSurrogate (n : Nat) : Bool := 0xDC00 ≤ n && n < 0xE000

/-- Reads a string up to its closing quote: its characters, and what follows the quote. -/
def stringTail? : List Char → Option (List Char × List Char)
  | [] => none
  | '"' :: rest => some ([], rest)
  | '\\' :: 'u' :: a :: b :: c :: d :: rest => do
    let unit ← Numeral.read? 16 [a, b, c, d]
    if isHighSurrogate unit then
      match rest with
      | '\\' :: 'u' :: e :: f :: g :: h :: rest =>
        let low ← Numeral.read? 16 [e, f, g, h]
        if isLowSurrogate low then
          let (cs, tail) ← stringTail? rest
          return (Char.ofNat (0x10000 + (unit - 0xD800) * 0x400 + (low - 0xDC00)) :: cs, tail)
        else none
      | _ => none
    else if isLowSurrogate unit then none
    else
      let (cs, tail) ← stringTail? rest
      return (Char.ofNat unit :: cs, tail)
  | '\\' :: c :: rest => do
    let escaped ← shortEscape? c
    let (cs, tail) ← stringTail? rest
    return (escaped :: cs, tail)
  | c :: rest =>
    if c.toNat < 32 ∨ c = '\\' then none
    else do
      let (cs, tail) ← stringTail? rest
      return (c :: cs, tail)

/-! ## Tokens -/

/-- The value of a literal name. -/
def literal? (cs : List Char) : Option Json :=
  if cs = "null".toList then some .null
  else if cs = "true".toList then some (.bool true)
  else if cs = "false".toList then some (.bool false)
  else none

/-- The token that a single character makes. -/
def punctuation? (c : Char) : Option Token :=
  if c = '\x7b' then some .openBrace
  else if c = '\x7d' then some .closeBrace
  else if c = '[' then some .openBracket
  else if c = ']' then some .closeBracket
  else if c = ':' then some .colon
  else if c = ',' then some .comma
  else none

/-- Splits a text into tokens; each step consumes a character, so the length of the text is fuel
enough. -/
def scanWith : Nat → List Char → Option (List Token)
  | _, [] => some []
  | 0, _ :: _ => none
  | fuel + 1, c :: rest =>
    if isBlank c then scanWith fuel rest
    else
      match punctuation? c with
      | some token => (scanWith fuel rest).map (token :: ·)
      | none =>
        if c = '"' then do
          let (cs, tail) ← stringTail? rest
          return .string (String.ofList cs) :: (← scanWith fuel tail)
        else if c.isAlpha then do
          let value ← literal? ((c :: rest).takeWhile Char.isAlpha)
          return .scalar value :: (← scanWith fuel (rest.dropWhile Char.isAlpha))
        else do
          let number ← number? ((c :: rest).takeWhile isNumberChar)
          return .scalar (.number number) :: (← scanWith fuel (rest.dropWhile isNumberChar))

/-- The tokens of a text. -/
def scan? (text : String) : Option (List Token) :=
  scanWith text.length text.toList

end Token

/-! ## Values -/

/-- How deep containers may be nested. -/
def maxDepth : Nat := 127

mutual

/-- Reads one value that may nest `depth` deep. -/
def value? : Nat → Nat → List Token → Option (Json × List Token)
  | 0, _, _ => none
  | fuel + 1, depth, tokens =>
    match tokens with
    | .scalar value :: rest => some (value, rest)
    | .string s :: rest => some (.string s, rest)
    | .openBracket :: rest =>
      match depth with
      | 0 => none
      | depth + 1 =>
        match rest with
        | .closeBracket :: rest => some (.array [], rest)
        | rest => do
          let (items, rest) ← itemsTail? fuel depth rest
          return (.array items, rest)
    | .openBrace :: rest =>
      match depth with
      | 0 => none
      | depth + 1 =>
        match rest with
        | .closeBrace :: rest => some (.object [], rest)
        | rest => do
          let (members, rest) ← membersTail? fuel depth rest
          return (Json.ofMembers members, rest)
    | _ => none

/-- Reads items up to the closing bracket. -/
def itemsTail? : Nat → Nat → List Token → Option (List Json × List Token)
  | 0, _, _ => none
  | fuel + 1, depth, tokens => do
    let (item, rest) ← value? fuel depth tokens
    match rest with
    | .closeBracket :: rest => return ([item], rest)
    | .comma :: rest =>
      let (items, rest) ← itemsTail? fuel depth rest
      return (item :: items, rest)
    | _ => none

/-- Reads members up to the closing brace, in the order written. -/
def membersTail? : Nat → Nat → List Token → Option (List (String × Json) × List Token)
  | 0, _, _ => none
  | fuel + 1, depth, tokens =>
    match tokens with
    | .string key :: .colon :: rest => do
      let (value, rest) ← value? fuel depth rest
      match rest with
      | .closeBrace :: rest => return ([(key, value)], rest)
      | .comma :: rest =>
        let (members, rest) ← membersTail? fuel depth rest
        return ((key, value) :: members, rest)
      | _ => none
    | _ => none

end

/-- The value written in a text.  Every second step consumes a token, which bounds the steps. -/
def parse? (text : String) : Option Json := do
  let tokens ← Token.scan? text
  match ← value? (2 * tokens.length + 1) maxDepth tokens with
  | (value, []) => return value
  | _ => none

end Json

end SchemaAlgebra
