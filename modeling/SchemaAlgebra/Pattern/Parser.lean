import SchemaAlgebra.Numeral
import SchemaAlgebra.Pattern.Basic

/-!
# The written form of patterns

`Pattern.parse?` reads a pattern.  Beside characters that stand for themselves it knows sets in
brackets, the dot, groups, alternatives, the repetitions `*`, `+`, `?` and the counted ones, the
anchors, look-ahead, and escapes.  Names and back references are not patterns.
-/

namespace SchemaAlgebra

namespace Pattern

/-! ## Escapes -/

/-- The character whose code point the next `count` hexadecimal digits write. -/
def hexChar? (count : Nat) (cs : List Char) : Option (Char × List Char) := do
  let digits := cs.take count
  let code ← Numeral.read? 16 digits
  if digits.length = count ∧ code.isValidChar then
    some (Char.ofNat code, cs.drop count)
  else none

/-- The characters that a set escape stands for. -/
def setEscape? : Char → Option CharSet
  | 'd' => some .digit
  | 'D' => some CharSet.digit.complement
  | 'w' => some .word
  | 'W' => some CharSet.word.complement
  | 's' => some .space
  | 'S' => some CharSet.space.complement
  | _ => none

/-- The character that an escape stands for, and what follows it.  Punctuation stands for itself. -/
def charEscape? : List Char → Option (Char × List Char)
  | 'n' :: rest => some ('\n', rest)
  | 'r' :: rest => some ('\r', rest)
  | 't' :: rest => some ('\t', rest)
  | 'f' :: rest => some ('\x0c', rest)
  | 'v' :: rest => some ('\x0b', rest)
  | 'x' :: rest => hexChar? 2 rest
  | 'u' :: rest => hexChar? 4 rest
  | c :: rest =>
    if c.toNat < 128 && !c.isAlphanum && c.toNat > 32 then some (c, rest) else none
  | [] => none

/-! ## Sets -/

/-- One member of a set in brackets: a character or the ranges of a set escape. -/
def setMember? : List Char → Option ((Char ⊕ List (Nat × Nat)) × List Char)
  | '\\' :: c :: rest =>
    match setEscape? c with
    | some set => some (.inr set.flatten, rest)
    | none => (charEscape? (c :: rest)).map fun (c, rest) => (.inl c, rest)
  | '[' :: _ => none
  | c :: rest => some (.inl c, rest)
  | [] => none

/-- The ranges of a set in brackets, up to the closing bracket, which is none if it comes `first`.
-/
def setRanges? : Nat → Bool → List Char → Option (List (Nat × Nat) × List Char)
  | 0, _, _ => none
  | fuel + 1, first, cs =>
    match first, cs with
    | false, ']' :: rest => some ([], rest)
    | _, cs => do
      let (member, rest) ← setMember? cs
      match member with
      | .inr ranges =>
        let (more, rest) ← setRanges? fuel false rest
        return (ranges ++ more, rest)
      | .inl low =>
        match rest with
        | '-' :: ']' :: _ =>
          let (more, rest) ← setRanges? fuel false rest
          return ((low.toNat, low.toNat) :: more, rest)
        | '-' :: rest =>
          match ← setMember? rest with
          | (.inl high, rest) =>
            if low.toNat ≤ high.toNat then
              let (more, rest) ← setRanges? fuel false rest
              return ((low.toNat, high.toNat) :: more, rest)
            else none
          | (.inr _, _) => none
        | rest =>
          let (more, rest) ← setRanges? fuel false rest
          return ((low.toNat, low.toNat) :: more, rest)

/-- A set in brackets, after the opening one. -/
def set? : List Char → Option (CharSet × List Char)
  | '^' :: rest => (setRanges? (rest.length + 1) true rest).map fun (ranges, rest) =>
      (⟨ranges, true⟩, rest)
  | cs => (setRanges? (cs.length + 1) true cs).map fun (ranges, rest) => (⟨ranges, false⟩, rest)

/-! ## Repetitions -/

/-- The number at the front, if there is one. -/
def count? (cs : List Char) : Option (Nat × List Char) :=
  let digits := cs.takeWhile Char.isDigit
  if digits.isEmpty then none
  else
    some (Numeral.decimal digits, cs.dropWhile Char.isDigit)

/-- The bounds of a counted repetition, after the opening brace. -/
def bounds? (cs : List Char) : Option ((Nat × Option Nat) × List Char) := do
  let (least, rest) ← count? cs
  match rest with
  | '\x7d' :: rest => return ((least, some least), rest)
  | ',' :: '\x7d' :: rest => return ((least, none), rest)
  | ',' :: rest =>
    let (most, rest) ← count? rest
    match rest with
    | '\x7d' :: rest => if least ≤ most then return ((least, some most), rest) else none
    | _ => none
  | _ => none

/-- The repetitions written after a pattern; which of several matches is preferred does not matter
to a search. -/
def repetitions? : Nat → Pattern → List Char → Option (Pattern × List Char)
  | 0, p, cs => some (p, cs)
  | fuel + 1, p, cs =>
    match cs with
    | '*' :: rest => repetitions? fuel (loop p 0 none) rest
    | '+' :: rest => repetitions? fuel (loop p 1 none) rest
    | '?' :: rest => repetitions? fuel (loop p 0 (some 1)) rest
    | '\x7b' :: rest => do
      let ((least, most), rest) ← bounds? rest
      match rest with
      | '?' :: rest => repetitions? fuel (loop p least most) rest
      | rest => repetitions? fuel (loop p least most) rest
    | cs => some (p, cs)

/-! ## Patterns -/

/-- The pattern of an escape, after the backslash. -/
def escape? : List Char → Option (Pattern × List Char)
  | 'b' :: rest => some (edge false, rest)
  | 'B' :: rest => some (edge true, rest)
  | c :: rest =>
    match setEscape? c with
    | some set => some (one set, rest)
    | none => (charEscape? (c :: rest)).map fun (c, rest) => (one (.single c), rest)
  | [] => none

mutual

/-- A pattern that needs no parentheses to be repeated. -/
def atom? : Nat → List Char → Option (Pattern × List Char)
  | 0, _ => none
  | fuel + 1, cs =>
    let closed := fun (parsed : Option (Pattern × List Char)) =>
      match parsed with
      | some (p, ')' :: rest) => some (p, rest)
      | _ => none
    match cs with
    | '(' :: '?' :: ':' :: rest => closed (alternatives? fuel rest)
    | '(' :: '?' :: '=' :: rest =>
      (closed (alternatives? fuel rest)).map fun (p, rest) => (ahead p false, rest)
    | '(' :: '?' :: '!' :: rest =>
      (closed (alternatives? fuel rest)).map fun (p, rest) => (ahead p true, rest)
    | '(' :: '?' :: _ => none
    | '(' :: rest => closed (alternatives? fuel rest)
    | '[' :: rest => (set? rest).map fun (set, rest) => (one set, rest)
    | '.' :: rest => some (one .dot, rest)
    | '^' :: rest => some (start, rest)
    | '$' :: rest => some (finish, rest)
    | '\\' :: rest => escape? rest
    | '*' :: _ | '+' :: _ | '?' :: _ | '\x7b' :: _ | ')' :: _ | '|' :: _ => none
    | c :: rest => some (one (.single c), rest)
    | [] => none

/-- Patterns one after another, up to a bar, a closing parenthesis or the end. -/
def sequence? : Nat → List Char → Option (Pattern × List Char)
  | 0, _ => none
  | fuel + 1, cs =>
    match cs with
    | [] => some (empty, [])
    | '|' :: _ | ')' :: _ => some (empty, cs)
    | cs => do
      let (p, rest) ← atom? fuel cs
      let (p, rest) ← repetitions? rest.length p rest
      let (q, rest) ← sequence? fuel rest
      return (seq p q, rest)

/-- Alternatives between bars. -/
def alternatives? : Nat → List Char → Option (Pattern × List Char)
  | 0, _ => none
  | fuel + 1, cs => do
    let (p, rest) ← sequence? fuel cs
    match rest with
    | '|' :: rest =>
      let (q, rest) ← alternatives? fuel rest
      return (alt p q, rest)
    | rest => return (p, rest)

end

/-- Reads a pattern.  Each level of nesting and each character takes at most three steps. -/
def parse? (text : String) : Option Pattern :=
  match alternatives? (3 * text.length + 3) text.toList with
  | some (p, []) => some p
  | _ => none

end Pattern

end SchemaAlgebra
