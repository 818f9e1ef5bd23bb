import SchemaAlgebra.Json.Text

/-!
# Values laid out over lines

`Json.layout` writes a value with every member and item on a line of its own, indented by two spaces
for each level.  Empty containers stay on one line.
-/

namespace SchemaAlgebra

namespace Json

/-- The beginning of a line at a level. -/
def lineBreak (level : Nat) : String :=
  "\n" ++ String.ofList (List.replicate (2 * level) ' ')

mutual

/-- The value laid out, its own lines being indented for `level`. -/
def layoutAt (level : Nat) : Json → String
  | .array [] => "[]"
  | .array items =>
    "[" ++ String.intercalate "," (layoutItems (level + 1) items) ++ lineBreak level ++ "]"
  | .object [] => "\x7b\x7d"
  | .object members =>
    "\x7b" ++ String.intercalate "," (layoutMembers (level + 1) members) ++ lineBreak level
      ++ "\x7d"
  | value => value.text

/-- The items, each on lines of its own. -/
def layoutItems (level : Nat) : List Json → List String
  | [] => []
  | item :: rest => (lineBreak level ++ layoutAt level item) :: layoutItems level rest

/-- The members, each on lines of its own. -/
def layoutMembers (level : Nat) : List (String × Json) → List String
  | [] => []
  | (key, value) :: rest =>
    (lineBreak level ++ quote key ++ ": " ++ layoutAt level value) :: layoutMembers level rest

end

/-- The value laid out over lines. -/
def layout (value : Json) : String :=
  layoutAt 0 value

end Json

end SchemaAlgebra
