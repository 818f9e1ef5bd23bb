import SchemaAlgebra.Json.Basic
import SchemaAlgebra.Numeral

/-!
# Pointers into a document

A position inside a document is written as a *pointer*: each step down is a slash and a token, the
key of a member or the index of an item, with `~` and `/` inside a token escaped.  The empty pointer
is the whole document.

* `Pointer.escape`, `Pointer.unescape` — one token and its written form.
* `Pointer.join` — a pointer followed by further tokens; `Pointer.hasPrefix` — the positions at or
  beneath a position.
* `Json.resolve?` — the value a pointer leads to.  An index is written without sign or leading
  zeros.
* `Json.follow?` — the value a list of steps leads to, which reads indices more leniently.
-/

namespace SchemaAlgebra

/-- A position in a document, in written form. -/
abbrev Pointer := String

namespace Pointer

/-! ## Tokens -/

/-- The written form of the characters of a token. -/
def escapeChars : List Char → List Char
  | [] => []
  | '~' :: rest => '~' :: '0' :: escapeChars rest
  | '/' :: rest => '~' :: '1' :: escapeChars rest
  | c :: rest => c :: escapeChars rest

/-- Undoes `escapeChars`; a tilde that begins no escape stands for itself. -/
def unescapeChars : List Char → List Char
  | [] => []
  | '~' :: '1' :: rest => '/' :: unescapeChars rest
  | '~' :: '0' :: rest => '~' :: unescapeChars rest
  | c :: rest => c :: unescapeChars rest

/-- The written form of a token. -/
def escape (token : String) : String :=
  String.ofList (escapeChars token.toList)

/-- The token with a written form. -/
def unescape (written : String) : String :=
  String.ofList (unescapeChars written.toList)

/-- The token of an array index. -/
def indexToken (index : Nat) : String :=
  toString index

/-! ## Pointers -/

/-- A pointer followed by further tokens. -/
def join (base : Pointer) (tokens : List String) : Pointer :=
  tokens.foldl (fun acc token => acc ++ "/" ++ escape token) base

/-- The pointer of a position directly below another. -/
def child (base : Pointer) (token : String) : Pointer :=
  join base [token]

/-- Whether `pointer` is `pre` or lies beneath it. -/
def hasPrefix (pointer pre : Pointer) : Bool :=
  pre = "" || pointer = pre || (pre.toList ++ ['/']).isPrefixOf pointer.toList

/-- What follows the first `pre.length` characters of `pointer`. -/
def dropPrefix (pointer pre : Pointer) : Pointer :=
  String.ofList (pointer.toList.drop pre.toList.length)

/-- The parts between slashes, at least one. -/
def splitSlashes : List Char → List (List Char)
  | [] => [[]]
  | '/' :: rest => [] :: splitSlashes rest
  | c :: rest =>
    match splitSlashes rest with
    | [] => [[c]]
    | part :: parts => (c :: part) :: parts

/-- The tokens of a pointer, `none` if it is neither empty nor begins with a slash. -/
def tokens? (pointer : Pointer) : Option (List String) :=
  match pointer.toList with
  | [] => some []
  | '/' :: rest => some ((splitSlashes rest).map fun part => String.ofList (unescapeChars part))
  | _ => none

/-- The last token of a pointer, as a key. -/
def lastToken (pointer : Pointer) : String :=
  match (splitSlashes pointer.toList).getLast? with
  | some part => String.ofList (unescapeChars part)
  | none => ""

/-! ## Indices -/

/-- The number that a string of digits writes.  Its size does not matter, as no list has more items
than an index can count. -/
def digitsIndex? (ds : List Char) : Option Nat :=
  if ds.isEmpty || !ds.all Char.isDigit then none else some (Numeral.decimal ds)

/-- An index with an optional plus sign and any leading zeros. -/
def lenientIndex? (token : String) : Option Nat :=
  match token.toList with
  | '+' :: ds => digitsIndex? ds
  | ds => digitsIndex? ds

/-- An index in the only form a pointer may write it in. -/
def strictIndex? (token : String) : Option Nat :=
  match token.toList with
  | ['0'] => some 0
  | '0' :: _ => none
  | ds => digitsIndex? ds

end Pointer

namespace Json

/-- One step down from a value, with `index?` reading the indices of items. -/
def step? (index? : String → Option Nat) (value : Json) (token : String) : Option Json :=
  match value with
  | .object members => Entries.lookup token members
  | .array items => do items[← index? token]?
  | _ => none

/-- The value a list of steps leads to; no steps lead to the value itself. -/
def follow? (value : Json) (path : List String) : Option Json :=
  path.foldlM (step? Pointer.lenientIndex?) value

/-- The value a pointer leads to. -/
def resolve? (value : Json) (pointer : Pointer) : Option Json := do
  (← Pointer.tokens? pointer).foldlM (step? Pointer.strictIndex?) value

@[simp] theorem follow?_nil (value : Json) : value.follow? [] = some value := rfl

theorem follow?_cons (value : Json) (token : String) (path : List String) :
    value.follow? (token :: path) =
      (step? Pointer.lenientIndex? value token).bind (·.follow? path) := by
  simp only [follow?, List.foldlM_cons]
  rfl

/-- Each step leads to a value that is less deep. -/
theorem depth_lt_of_step? {index? : String → Option Nat} {value below : Json} {token : String}
    (h : step? index? value token = some below) : below.depth < value.depth := by
  cases value with
  | object members => exact Nat.lt_succ_of_le (depth_le_of_lookup h)
  | array items =>
    obtain ⟨i, _, hitem⟩ := Option.bind_eq_some_iff.1 h
    exact Nat.lt_succ_of_le (depth_le_of_mem_items (List.mem_of_getElem? hitem))
  | _ => simp [step?] at h

theorem depth_le_of_follow? {value below : Json} {path : List String}
    (h : value.follow? path = some below) : below.depth ≤ value.depth := by
  induction path generalizing value with
  | nil => exact Option.some.inj h ▸ Nat.le_refl _
  | cons token path ih =>
    rw [follow?_cons] at h
    obtain ⟨next, hnext, hrest⟩ := Option.bind_eq_some_iff.1 h
    exact Nat.le_trans (ih hrest) (Nat.le_of_lt (depth_lt_of_step? hnext))

end Json

end SchemaAlgebra
