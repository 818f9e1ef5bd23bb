import SchemaAlgebra.Numeral

/-!
# URI references

A reference names a resource, in full or relative to another one.  It has up to five parts; which of
them a relative one takes over from its base is decided by `Uri.resolve`.

* `Uri.parse?` — reads a reference, refusing characters that no reference contains.
* `Uri.resolve` — the resource that a reference means when it is met inside another one.
* `Uri.decodePercent` — the text that a percent-encoded one stands for.
-/

namespace SchemaAlgebra

/-- A reference in its parts, each without the mark that introduces it. -/
structure Uri where
  scheme : Option (List Char) := none
  authority : Option (List Char) := none
  path : List Char := []
  query : Option (List Char) := none
  fragment : Option (List Char) := none
deriving DecidableEq, Inhabited

namespace Uri

/-! ## Reading -/

/-- Characters that any part may contain as they are, besides those it reserves. -/
def isPlain (c : Char) : Bool :=
  c.isAlphanum || "-._~!$&'()*+,;=:@".toList.contains c

/-- Whether a part consists of plain characters, characters of `also`, and percent escapes. -/
def isPart (also : List Char) : List Char → Bool
  | [] => true
  | '%' :: a :: b :: rest => (Numeral.read? 16 [a, b]).isSome && isPart also rest
  | c :: rest => (isPlain c || also.contains c) && isPart also rest

/-- Splits at the first `mark`; what follows it is `none` if there is none. -/
def cut (mark : Char) (cs : List Char) : List Char × Option (List Char) :=
  match cs.dropWhile (· ≠ mark) with
  | [] => (cs, none)
  | _ :: rest => (cs.takeWhile (· ≠ mark), some rest)

/-- Whether this is the name of a scheme. -/
def isScheme : List Char → Bool
  | [] => false
  | c :: rest =>
    c.isAlpha && rest.all fun c => c.isAlphanum || c = '+' || c = '-' || c = '.'

/-- Splits off the scheme.  A colon in the first segment of a path that has none is refused. -/
def cutScheme? (cs : List Char) : Option (Option (List Char) × List Char) :=
  match cut ':' cs with
  | (_, none) => some (none, cs)
  | (scheme, some rest) =>
    if scheme.contains '/' then some (none, cs)
    else if isScheme scheme then some (some scheme, rest)
    else none

/-- Splits off the authority, which two slashes introduce. -/
def cutAuthority : List Char → Option (List Char) × List Char
  | '/' :: '/' :: rest =>
    (some (rest.takeWhile (· ≠ '/')), rest.dropWhile (· ≠ '/'))
  | cs => (none, cs)

/-- Reads a reference. -/
def parse? (text : String) : Option Uri := do
  let (beforeFragment, fragment) := cut '#' text.toList
  let (beforeQuery, query) := cut '?' beforeFragment
  let (scheme, rest) ← cutScheme? beforeQuery
  let (authority, path) := cutAuthority rest
  if isPart ['/'] path && authority.all (isPart ['[', ']']) && query.all (isPart ['/', '?'])
      && fragment.all (isPart ['/', '?']) then
    return ⟨scheme, authority, path, query, fragment⟩
  else none

/-- Whether the reference names a resource in full. -/
def isAbsolute (uri : Uri) : Bool :=
  uri.scheme.isSome

/-! ## Writing -/

/-- The written form of a reference. -/
def text (uri : Uri) : String :=
  String.ofList <|
    (uri.scheme.map (· ++ [':'])).getD [] ++ (uri.authority.map (['/', '/'] ++ ·)).getD []
      ++ uri.path ++ (uri.query.map (['?'] ++ ·)).getD []
      ++ (uri.fragment.map (['#'] ++ ·)).getD []

/-! ## Resolution -/

/-- The segments of a path between slashes, at least one. -/
def segments : List Char → List (List Char)
  | [] => [[]]
  | '/' :: rest => [] :: segments rest
  | c :: rest =>
    match segments rest with
    | [] => [[c]]
    | first :: more => (c :: first) :: more

/-- Walks along segments with the way so far in reverse: one dot stays, two dots go back. -/
def walk : List (List Char) → List (List Char) → List (List Char)
  | back, [] => back.reverse
  | back, [['.']] => ([] :: back).reverse
  | back, [['.', '.']] => ([] :: back.tail).reverse
  | back, ['.'] :: rest => walk back rest
  | back, ['.', '.'] :: rest => walk back.tail rest
  | back, segment :: rest => walk (segment :: back) rest

/-- A path from the root without dot segments. -/
def removeDots (path : List Char) : List Char :=
  match path with
  | '/' :: rest => '/' :: List.intercalate ['/'] (walk [] (segments rest))
  | path => path

/-- A path relative to the path of a base. -/
def mergePath (base : Uri) (path : List Char) : List Char :=
  if base.authority.isSome && base.path.isEmpty then '/' :: path
  else
    let kept := (segments base.path).dropLast
    List.intercalate ['/'] (kept ++ [path])

/-- The resource that `reference` means inside `base`. -/
def resolve (base reference : Uri) : Uri :=
  if reference.scheme.isSome then { reference with path := removeDots reference.path }
  else if reference.authority.isSome then
    { reference with scheme := base.scheme, path := removeDots reference.path }
  else if reference.path.isEmpty then
    { base with
      query := reference.query.or base.query
      fragment := reference.fragment }
  else
    let path := if reference.path.head? = some '/' then reference.path
      else mergePath base reference.path
    { scheme := base.scheme
      authority := base.authority
      path := removeDots path
      query := reference.query
      fragment := reference.fragment }

/-- The resource without the place inside it. -/
def withoutFragment (uri : Uri) : Uri :=
  { uri with fragment := none }

/-! ## Percent encoding -/

/-- The bytes of a text whose percent escapes stand for bytes. -/
def percentBytes : List Char → List UInt8
  | [] => []
  | '%' :: a :: b :: rest =>
    match Numeral.read? 16 [a, b] with
    | some byte => UInt8.ofNat byte :: percentBytes rest
    | none => "%".toUTF8.toList ++ percentBytes (a :: b :: rest)
  | c :: rest => c.toString.toUTF8.toList ++ percentBytes rest

/-- The text that a percent-encoded one stands for, if its bytes are text. -/
def decodePercent (cs : List Char) : Option String :=
  String.fromUTF8? (ByteArray.mk (percentBytes cs).toArray)

end Uri

end SchemaAlgebra
