/-!
# Patterns

A pattern describes texts; `Pattern.occursIn` searches a text for a part that it describes, anywhere
unless the pattern is anchored.

A place in a text is what is left of it, with the character before (`Place`).  `Pattern.ends` lists
the places at which a match that starts at a given place can end.  The places of one text are told
apart by how much is left of it, so a repetition has at most as many ends as the text has
characters, and one more.
-/

namespace SchemaAlgebra

/-- A set of characters: some ranges of code points, or everything outside them. -/
structure CharSet where
  /-- The ranges, both ends included. -/
  ranges : List (Nat × Nat)
  /-- Whether the set is the complement of the ranges. -/
  negated : Bool := false
deriving DecidableEq, Inhabited

namespace CharSet

/-- Whether a character is in the set. -/
def contains (set : CharSet) (c : Char) : Bool :=
  set.negated != set.ranges.any fun (low, high) => low ≤ c.toNat && c.toNat ≤ high

/-- The set of one character. -/
def single (c : Char) : CharSet :=
  ⟨[(c.toNat, c.toNat)], false⟩

/-- Everything outside a set. -/
def complement (set : CharSet) : CharSet :=
  { set with negated := !set.negated }

/-- Decimal digits. -/
def digit : CharSet := ⟨[(48, 57)], false⟩

/-- Letters and digits of ASCII, and the underscore. -/
def word : CharSet := ⟨[(48, 57), (65, 90), (95, 95), (97, 122)], false⟩

/-- Blanks and line ends. -/
def space : CharSet :=
  ⟨[(9, 13), (32, 32), (0xA0, 0xA0), (0x1680, 0x1680), (0x2000, 0x200A), (0x2028, 0x2029),
    (0x202F, 0x202F), (0x205F, 0x205F), (0x3000, 0x3000), (0xFEFF, 0xFEFF)], false⟩

/-- Everything but the end of a line. -/
def dot : CharSet := ⟨[(10, 10)], true⟩

/-- The ranges of the characters in a set, without a complement. -/
def flatten (set : CharSet) : List (Nat × Nat) :=
  if set.negated then
    let (low, gaps) := set.ranges.foldl
      (fun (low, gaps) (first, last) => (last + 1, gaps ++ [(low, first - 1)])) (0, [])
    (gaps ++ [(low, 0x10FFFF)]).filter fun (first, last) => first ≤ last
  else set.ranges

end CharSet

/-- A regular expression. -/
inductive Pattern where
  /-- The empty text. -/
  | empty
  /-- One character of a set. -/
  | one (set : CharSet)
  /-- One pattern after another. -/
  | seq (first second : Pattern)
  /-- Either of two patterns. -/
  | alt (left right : Pattern)
  /-- A pattern repeated at least `least` and, if there is a bound, at most `most` times. -/
  | loop (body : Pattern) (least : Nat) (most : Option Nat)
  /-- The beginning of the text. -/
  | start
  /-- The end of the text. -/
  | finish
  /-- A place between a word character and another, or, if not `inverted`, none of them. -/
  | edge (inverted : Bool)
  /-- A place from which the pattern matches, or, if `inverted`, does not match. -/
  | ahead (body : Pattern) (inverted : Bool)
deriving DecidableEq, Inhabited

/-- A place in a text. -/
structure Place where
  /-- The character before the place, if any. -/
  before : Option Char
  /-- The characters after the place. -/
  rest : List Char
deriving DecidableEq, Inhabited

namespace Place

/-- The first place of a text. -/
def ofText (text : List Char) : Place := ⟨none, text⟩

/-- Whether exactly one of the characters around the place belongs to a word. -/
def isEdge (place : Place) : Bool :=
  let isWord : Option Char → Bool := fun c => c.any CharSet.word.contains
  isWord place.before != isWord place.rest.head?

/-- Adds the places of `new` that are not yet in `seen`. -/
def addTo (seen new : List Place) : List Place :=
  new.foldl
    (fun acc place =>
      if acc.any fun known => known.rest.length == place.rest.length then acc else acc ++ [place])
    seen

end Place

namespace Pattern

/-- The places that exactly `count` steps lead to. -/
def exactly (step : Place → List Place) : Nat → List Place → List Place
  | 0, places => places
  | count + 1, places => exactly step count (Place.addTo [] (places.flatMap step))

/-- The places that at most `count` steps lead to. -/
def upTo (step : Place → List Place) : Nat → List Place → List Place
  | 0, places => places
  | count + 1, places => upTo step count (Place.addTo places (places.flatMap step))

/-- The places at which a match that starts at `place` can end.  More steps than characters are left
lead nowhere new, so an unbounded repetition takes that many. -/
def ends : Pattern → Place → List Place
  | empty, place => [place]
  | one set, place =>
    match place.rest with
    | c :: rest => if set.contains c then [⟨some c, rest⟩] else []
    | [] => []
  | seq first second, place => Place.addTo [] ((first.ends place).flatMap second.ends)
  | alt left right, place => Place.addTo [] (left.ends place ++ right.ends place)
  | loop body least most, place =>
    let enough := place.rest.length + 1
    let extra := match most with
      | some most => min (most - least) enough
      | none => enough
    upTo body.ends extra (exactly body.ends least [place])
  | start, place => if place.before.isNone then [place] else []
  | finish, place => if place.rest.isEmpty then [place] else []
  | edge inverted, place => if inverted != place.isEdge then [place] else []
  | ahead body inverted, place =>
    if inverted == (body.ends place).isEmpty then [place] else []

/-- Whether some match starts at the place or later. -/
def matchesFrom (p : Pattern) : Option Char → List Char → Bool
  | before, [] => !(p.ends ⟨before, []⟩).isEmpty
  | before, c :: rest => !(p.ends ⟨before, c :: rest⟩).isEmpty || matchesFrom p (some c) rest

/-- Whether the pattern describes some part of the text. -/
def occursIn (p : Pattern) (text : String) : Bool :=
  p.matchesFrom none text.toList

end Pattern

end SchemaAlgebra
