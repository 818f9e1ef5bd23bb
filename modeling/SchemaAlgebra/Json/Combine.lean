import SchemaAlgebra.Json.Basic

/-!
# Combining values, with `null` as absence

A `null` says that something is absent: merging skips it, it is no sequence, and concatenating it
adds nothing.  This keeps generated documents small and comparable.

* `Entries.trim`, `Entries.merge` — members without nulls, and the shallow merge in which later
  members win.
* `Json.seq`, `Json.concat` — a value as a sequence, and sequences one after another.
* `Json.dedupe` — a list without repetitions, in its order.
-/

namespace SchemaAlgebra

namespace Entries

/-- The members that are not `null`. -/
def trim (members : Entries Json) : Entries Json :=
  members.filter fun member => !member.2.isNull

/-- The shallow merge from left to right: a later member replaces an earlier one, and a `null`
leaves it alone. -/
def merge (parts : List (Entries Json)) : Entries Json :=
  parts.foldl (fun acc part => enter (trim part) acc) []

end Entries

/-- Keeps of equal items the first, `same` telling which are equal. -/
def dedupeBy {α : Type} (same : α → α → Bool) (items : List α) : List α :=
  items.foldl (fun kept item => if kept.any (same · item) then kept else kept ++ [item]) []

namespace Json

/-- A list without repetitions, in its order. -/
def dedupe (items : List Json) : List Json :=
  dedupeBy Json.same items

/-- A value as a sequence: `null` is empty, an array is its items, and anything else is a sequence
of one. -/
def seq : Json → List Json
  | .null => []
  | .array items => items
  | value => [value]

/-- The sequences of values, one after another. -/
def concat (values : List Json) : List Json :=
  values.flatMap seq

/-- Nothing for an empty object or array, the value otherwise. -/
def nonEmpty? : Json → Option Json
  | .object [] => none
  | .array [] => none
  | value => some value

end Json

end SchemaAlgebra
